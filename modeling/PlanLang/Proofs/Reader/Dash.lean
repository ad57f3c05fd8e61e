import Mathlib.Data.List.TakeWhile
import PlanLang.Proofs.Reader.TypedList

/-!
# Dashes in typed lists

A dash stands between the names of a group and their type.  The reader of typed lists notes that a
requirement is needed once for each dash that it reads.
-/

namespace PlanLang

/-! ### Counting -/

/-- The step notes that types are needed. -/
def Step.needsTyping : Step → Bool
  | .need r _ => r = .typing
  | .event _ => false

theorem Step.typing_mem_needs {ss : List Step} :
  .typing ∈ needs ss ↔ 0 < ss.countP needsTyping
  := by
  rw [mem_needs, List.countP_pos_iff]
  constructor
  · rintro ⟨what, hmem⟩
    exact ⟨_, hmem, rfl⟩
  · rintro ⟨s, hmem, hs⟩
    cases s with
    | event e => contradiction
    | need r what =>
      obtain rfl : r = .typing := of_decide_eq_true hs
      exact ⟨what, hmem⟩

/-- The number of dashes among tokens. -/
def Token.dashes (ts : List Token) : Nat :=
  ts.countP (·.kind = .dash)

namespace Reader

variable {α β : Type}

/-- When the reader comes to its end, then it has noted `n` times more than it has read dashes that
types are needed. -/
def MarksAt (r : Reader α) (c : Cursor) (n : Int) : Prop :=
  ∀ a c', (r c).2 = .ok (a, c') →
    ∃ ts, c.rest = ts ++ c'.rest ∧
      ((r.steps c).countP Step.needsTyping : Int) = Token.dashes ts + n

theorem MarksAt.bind {r : Reader α} {f : α → Reader β} {c : Cursor} {n m : Int}
    (hr : r.MarksAt c n) (hf : ∀ a c', (r c).2 = .ok (a, c') → (f a).MarksAt c' m) :
  (r >>= f).MarksAt c (n + m)
  := by
  intro b c'' h
  cases hfirst : (r c).2 with
  | error e =>
    rw [(bind_of_error f hfirst).2] at h
    contradiction
  | ok p =>
    obtain ⟨a, c'⟩ := p
    obtain ⟨hsteps, hout⟩ := bind_of_ok f hfirst
    rw [hout] at h
    obtain ⟨ts, hts, hcount⟩ := hr a c' hfirst
    obtain ⟨us, hus, hcount'⟩ := hf a c' hfirst b c'' h
    refine ⟨ts ++ us, by rw [hts, hus, List.append_assoc], ?_⟩
    rw [hsteps, List.countP_append, Token.dashes, List.countP_append]
    rw [Token.dashes] at hcount hcount'
    push_cast
    omega

/-- From each cursor on, the reader notes that types are needed once for each dash that it reads. -/
def Marks (r : Reader α) : Prop :=
  ∀ c, r.MarksAt c 0

theorem Marks.bind {r : Reader α} {f : α → Reader β} (hr : r.Marks) (hf : ∀ a, (f a).Marks) :
  (r >>= f).Marks
  := by
  intro c
  apply (hr c).bind fun a c' _ => hf a c'

theorem marks_pure (a : α) :
  Marks (pure a : Reader α)
  := by
  intro c b c' h
  cases h
  exact ⟨[], rfl, rfl⟩

theorem marksAt_report (s : Step) (c : Cursor) :
  (report s).MarksAt c (if s.needsTyping then 1 else 0)
  := by
  intro b c' h
  cases h
  refine ⟨[], rfl, ?_⟩
  cases hs : s.needsTyping <;> simp [steps, report, Token.dashes, hs]

theorem marks_named (r : Role) (t : Token) :
  (named r t).Marks
  := marksAt_report _

theorem marks_allNamed (r : Role) (ts : List Token) :
  (allNamed r ts).Marks
  := by
  induction ts with
  | nil => apply marks_pure
  | cons t ts ih => apply (marks_named r t).bind fun _ => ih

/-- A construct is entered and left around what is read. -/
theorem MarksAt.within {r : Reader Unit} {n : Int} (k : Construct) (h : ∀ c, r.MarksAt c n)
    (c : Cursor) :
  (within k r).MarksAt c n
  := by
  have hall := (marksAt_report (.event (.enter k)) c).bind fun _ c' _ =>
    (h c').bind fun _ c'' _ => marksAt_report (.event (.leave k)) c''
  simpa [Step.needsTyping, Reader.within] using hall

/-- A token that is not a dash is read, or none. -/
theorem marks_accept {p : Token → Bool} (hp : ∀ t, p t → t.kind ≠ .dash) :
  (accept p).Marks
  := by
  intro ⟨rest, last⟩ a c' h
  cases rest with
  | nil =>
    cases h
    exact ⟨[], rfl, rfl⟩
  | cons t ts =>
    by_cases ht : p t
    · obtain ⟨-, rfl⟩ : some t = a ∧ ⟨ts, t.position⟩ = c' := by simpa [accept, ht] using h
      refine ⟨[t], rfl, ?_⟩
      simp [steps, accept, Token.dashes, hp t ht]
    · obtain ⟨-, rfl⟩ : none = a ∧ ⟨t :: ts, last⟩ = c' := by simpa [accept, ht] using h
      refine ⟨[], rfl, ?_⟩
      simp [steps, accept, Token.dashes]

theorem marks_expect {p : Token → Bool} (options : List String) (hp : ∀ t, p t → t.kind ≠ .dash) :
  (expect p options).Marks
  := by
  intro ⟨rest, last⟩ a c' h
  cases rest with
  | nil => contradiction
  | cons t ts =>
    by_cases ht : p t
    · obtain ⟨-, rfl⟩ : t = a ∧ ⟨ts, t.position⟩ = c' := by simpa [expect, ht] using h
      refine ⟨[t], rfl, ?_⟩
      simp [steps, expect, ht, Token.dashes, hp t ht]
    · simp [expect, ht] at h

theorem marks_run {kind : TokenKind} (hkind : kind ≠ .dash) :
  (run kind).Marks
  := by
  intro c ts c' h
  cases h
  refine ⟨_, List.takeWhile_append_dropWhile.symm, ?_⟩
  have hzero : Token.dashes (c.rest.takeWhile (·.kind = kind)) = 0 := by
    rw [Token.dashes, List.countP_eq_zero]
    intro t ht
    have hkind' : t.kind = kind := by simpa using List.mem_takeWhile_imp ht
    simpa [hkind'] using hkind
  rw [hzero]
  rfl

/-- A choice that depends on whether the next token satisfies `p`: if it does, it may be a dash. -/
theorem MarksAt.ite_found {p : Token → Bool} {r s : Reader α} {c : Cursor} {n : Int}
    (hr : ∀ t, p t → ∀ c, r.MarksAt c (n + Token.dashes [t])) (hs : s.MarksAt c n) :
  (do if ← found p then r else s).MarksAt c n
  := by
  intro a c' h
  obtain ⟨rest, last⟩ := c
  cases rest with
  | nil =>
    obtain ⟨hsteps, hout⟩ := bind_of_ok (r := found p) (c := ⟨[], last⟩)
      (fun b => if b then r else s) rfl
    rw [hout] at h
    obtain ⟨ts, hts, hcount⟩ := hs a c' h
    refine ⟨ts, hts, ?_⟩
    rw [hsteps, (silent_found p).steps_eq, List.nil_append]
    exact hcount
  | cons t ts =>
    by_cases ht : p t
    · have hfound : (found p ⟨t :: ts, last⟩).2 = .ok (true, ⟨ts, t.position⟩) := by
        simp [found, accept, bind_apply, pure_apply, ht]
      obtain ⟨hsteps, hout⟩ := bind_of_ok (fun b => if b then r else s) hfound
      rw [hout] at h
      obtain ⟨us, hus, hcount⟩ := hr t ht _ a c' h
      refine ⟨t :: us, congrArg (t :: ·) hus, ?_⟩
      rw [hsteps, (silent_found p).steps_eq, List.nil_append]
      rw [Token.dashes, ← List.singleton_append, List.countP_append]
      rw [Token.dashes, Token.dashes] at hcount
      push_cast
      exact hcount.trans (by omega)
    · have hfound : (found p ⟨t :: ts, last⟩).2 = .ok (false, ⟨t :: ts, last⟩) := by
        simp [found, accept, bind_apply, pure_apply, ht]
      obtain ⟨hsteps, hout⟩ := bind_of_ok (fun b => if b then r else s) hfound
      rw [hout] at h
      obtain ⟨us, hus, hcount⟩ := hs a c' h
      refine ⟨us, hus, ?_⟩
      rw [hsteps, (silent_found p).steps_eq, List.nil_append]
      exact hcount

theorem marks_repeated {r : Reader Unit} (h : r.Marks) :
  (repeated r).Marks
  := by
  have hwithin : ∀ n, (untilClosingWithin (fun _ => r) n ()).Marks := by
    intro n
    induction n with
    | zero => exact h
    | succ n ih =>
      intro c
      apply MarksAt.ite_found
      · intro t ht c
        have hzero : Token.dashes [t] = 0 := by
          simp [Token.dashes, of_decide_eq_true ht]
        rw [hzero]
        apply marks_pure
      · apply h.bind fun _ => ih
  intro c
  exact hwithin c.rest.length c

/-! ### Types and typed lists -/

/-- A token of a kind that is not that of dashes is none. -/
theorem ne_dash_of_kind {kind : TokenKind} (hkind : kind ≠ .dash) (t : Token)
    (ht : decide (t.kind = kind) = true) :
  t.kind ≠ .dash
  := by
  rwa [of_decide_eq_true ht]

theorem marks_type :
  typeAnnotation.Marks
  := by
  apply (marks_accept (ne_dash_of_kind (by decide))).bind
  intro o
  cases o with
  | some t => apply marks_named
  | none =>
    apply (marks_expect _ (ne_dash_of_kind (by decide))).bind
    intro _
    apply (marks_expect _ _).bind
    · intro _ c
      apply MarksAt.within
      apply (marks_expect _ (ne_dash_of_kind (by decide))).bind
      intro t
      apply (marks_named .type t).bind
      intro _
      apply marks_repeated
      apply (marks_expect _ (ne_dash_of_kind (by decide))).bind
      intro t
      apply marks_named
    · intro t ht
      simp only [Token.isName, Bool.and_eq_true, decide_eq_true_eq] at ht
      simp [ht.1]

theorem marks_typedGroup {kind : TokenKind} (hkind : kind ≠ .dash) (r : Role) (g : Construct) :
  (typedGroup kind r g).Marks
  := by
  apply (marks_run hkind).bind
  intro ts
  cases ts with
  | nil =>
    apply (marks_expect _ _).bind
    · intro _
      apply marks_pure
    · intro _ h
      contradiction
  | cons t ts =>
    intro c
    apply MarksAt.ite_found
    · intro d hd c
      have hone : Token.dashes [d] = 1 := by
        simp [Token.dashes, of_decide_eq_true hd]
      rw [hone]
      apply MarksAt.within
      intro c
      apply (marks_allNamed r (t :: ts) c).bind
      intro _ c _
      exact (marksAt_report (.need .typing "typed list") c).bind fun _ c' _ => marks_type c'
    · apply marks_allNamed

/-- A typed list notes that types are needed once for each of its dashes. -/
theorem marks_typedList {kind : TokenKind} (hkind : kind ≠ .dash) (r : Role) (g : Construct) :
  (typedList kind r g).Marks
  := marks_repeated (marks_typedGroup hkind r g)

end Reader

end PlanLang
