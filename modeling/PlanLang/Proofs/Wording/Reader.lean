import PlanLang.Proofs.Token.Alike
import PlanLang.Reader

/-!
# Readers and alike tokens

From tokens that are alike, a reader reports the same steps, and it comes to the same value or
stops with the same error, but for what these hold of the texts and the places of tokens.  This is
a relation between two readers; a reader that is related to itself depends on nothing but the kinds
of tokens and the words that they are.
-/

namespace PlanLang

/-! ### Results -/

/-- Two results are values that `R` relates, or errors that `E` relates. -/
inductive Corresponds {ε α : Type} (E : ε → ε → Prop) (R : α → α → Prop) :
    Except ε α → Except ε α → Prop where
  | ok {a a' : α} : R a a' → Corresponds E R (.ok a) (.ok a')
  | error {e e' : ε} : E e e' → Corresponds E R (.error e) (.error e')

namespace Corresponds

variable {ε δ α β : Type} {E : ε → ε → Prop} {R : α → α → Prop} {S : β → β → Prop}
variable {x x' : Except ε α}

theorem imp {R' : α → α → Prop} (h : Corresponds E R x x') (hR : ∀ a a', R a a' → R' a a') :
  Corresponds E R' x x'
  := by
  cases h with
  | ok ha => exact .ok (hR _ _ ha)
  | error he => exact .error he

theorem bind {f f' : α → Except ε β} (h : Corresponds E R x x')
    (hf : ∀ a a', R a a' → Corresponds E S (f a) (f' a')) :
  Corresponds E S (x >>= f) (x' >>= f')
  := by
  cases h with
  | ok ha => exact hf _ _ ha
  | error he => exact .error he

theorem map {f f' : α → β} (h : Corresponds E R x x')
    (hf : ∀ a a', R a a' → S (f a) (f' a')) :
  Corresponds E S (x.map f) (x'.map f')
  := by
  cases h with
  | ok ha => exact .ok (hf _ _ ha)
  | error he => exact .error he

theorem mapError {D : δ → δ → Prop} {g : ε → δ} (h : Corresponds E R x x')
    (hg : ∀ e e', E e e' → D (g e) (g e')) :
  Corresponds D R (x.mapError g) (x'.mapError g)
  := by
  cases h with
  | ok ha => exact .ok ha
  | error he => exact .error (hg _ _ he)

end Corresponds

/-! ### Errors, steps and cursors -/

/-- The same is wrong, and the texts that are quoted from the sources are the same words. -/
inductive SyntaxError.Kind.Alike : SyntaxError.Kind → SyntaxError.Kind → Prop where
  | expected {found found' : Option String} (options : List String)
      (h : Option.Rel (fun text text' => sameWord text text') found found') :
      Alike (.expected found options) (.expected found' options)
  | extraInput {text text' : String} (h : sameWord text text') :
      Alike (.extraInput text) (.extraInput text')
  | missingRequirement (r : Requirement) (what : String) :
      Alike (.missingRequirement r what) (.missingRequirement r what)
  | unsupported (word : String) : Alike (.unsupported word) (.unsupported word)
  | construct (error : BuildError) : Alike (.construct error) (.construct error)

/-- Two errors say the same, at places that are related. -/
structure SyntaxError.Alike (near : Position → Position → Prop) (e e' : SyntaxError) : Prop where
  position : near e.position e'.position
  kind : e.kind.Alike e'.kind

/-- Two reported steps are the same, at places that are related. -/
structure Step.Alike (near : Position → Position → Prop) (s s' : Position × Step) : Prop where
  position : near s.1 s'.1
  step : s.2 = s'.2

/-- The tokens that remain are alike, and those that were read last stand at places that are
related. -/
structure Cursor.Alike (near : Position → Position → Prop) (c c' : Cursor) : Prop where
  rest : List.Forall₂ (Token.Alike near) c.rest c'.rest
  last : near c.last c'.last

variable {near : Position → Position → Prop}

/-- Another text, or the end of the source, is found where the same is expected. -/
theorem SyntaxError.Alike.expected {p p' : Position} (h : near p p') {found found' : Option String}
    (hfound : Option.Rel (fun text text' => sameWord text text') found found')
    (options : List String) :
  SyntaxError.Alike near ⟨p, .expected found options⟩ ⟨p', .expected found' options⟩
  := ⟨h, .expected options hfound⟩

namespace Reader

variable {α β σ : Type}

/-- From cursors that are alike, two readers report steps that are alike, and either both end,
with values that `R` relates and cursors that are alike, or both stop with errors that are
alike. -/
def Alike (near : Position → Position → Prop) (R : α → α → Prop) (r r' : Reader α) : Prop :=
  ∀ ⦃c c' : Cursor⦄, c.Alike near c' →
    List.Forall₂ (Step.Alike near) (r c).1 (r' c').1 ∧
    Corresponds (SyntaxError.Alike near) (fun x x' => R x.1 x'.1 ∧ x.2.Alike near x'.2)
      (r c).2 (r' c').2

/-- The reader depends on nothing but the kinds of tokens and the words that they are, and so does
its value. -/
abbrev IsVerbal (near : Position → Position → Prop) (r : Reader α) : Prop :=
  Alike near (· = ·) r r

/-! ### Sequences of readers -/

theorem Alike.bind {R : α → α → Prop} {S : β → β → Prop} {r r' : Reader α}
    {f f' : α → Reader β} (hr : Alike near R r r')
    (hf : ∀ a a', R a a' → Alike near S (f a) (f' a')) :
  Alike near S (r >>= f) (r' >>= f')
  := by
  intro c c' hc
  obtain ⟨hsteps, hresult⟩ := hr hc
  rw [bind_apply, bind_apply]
  rcases hrc : r c with ⟨steps, result⟩
  rcases hrc' : r' c' with ⟨steps', result'⟩
  rw [hrc, hrc'] at hsteps hresult
  cases hresult with
  | ok h =>
    obtain ⟨hsteps', hresult'⟩ := hf _ _ h.1 h.2
    exact ⟨List.rel_append hsteps hsteps', hresult'⟩
  | error h => exact ⟨hsteps, .error h⟩

/-- After readers that end with the same value. -/
theorem Alike.bind_eq {S : β → β → Prop} {r r' : Reader α} {f f' : α → Reader β}
    (hr : Alike near (· = ·) r r') (hf : ∀ a, Alike near S (f a) (f' a)) :
  Alike near S (r >>= f) (r' >>= f')
  := by
  apply hr.bind
  rintro a _ rfl
  exact hf a

theorem alike_pure {R : α → α → Prop} {a a' : α} (h : R a a') :
  Alike near R (pure a) (pure a')
  := fun _ _ hc => ⟨.nil, .ok ⟨h, hc⟩⟩

theorem isVerbal_report (s : Step) :
  IsVerbal near (report s)
  := fun _ _ hc => ⟨.cons ⟨hc.last, rfl⟩ .nil, .ok ⟨rfl, hc⟩⟩

theorem Alike.within {r r' : Reader Unit} (k : Construct) (h : Alike near (· = ·) r r') :
  Alike near (· = ·) (within k r) (within k r')
  := by
  apply (isVerbal_report (.event (.enter k))).bind_eq
  intro _
  apply h.bind_eq
  intro _
  apply isVerbal_report

/-! ### Reading tokens -/

section Tokens

variable {p : Token → Bool} (hp : Token.IsVerbal near p)

include hp

theorem alike_accept :
  Alike near (Option.Rel (Token.Alike near)) (accept p) (accept p)
  := by
  rintro ⟨rest, last⟩ ⟨rest', last'⟩ hc
  obtain ⟨hrest, hlast⟩ := hc
  refine ⟨?_, ?_⟩
  · cases hrest <;> exact .nil
  · cases hrest with
    | nil => exact .ok ⟨.none, .nil, hlast⟩
    | @cons t t' ts ts' ht hts =>
      simp only [accept, hp ht]
      by_cases h : p t'
      · rw [if_pos h, if_pos h]
        exact .ok ⟨.some ht, hts, ht.position⟩
      · rw [if_neg h, if_neg h]
        exact .ok ⟨.none, .cons ht hts, hlast⟩

theorem isVerbal_found :
  IsVerbal near (found p)
  := by
  apply (alike_accept hp).bind
  intro t t' ht
  apply alike_pure
  cases ht <;> rfl

/-- A choice that depends on whether the next token satisfies `p`. -/
theorem Alike.ite_found {R : α → α → Prop} {r r' s s' : Reader α}
    (hr : Alike near R r r') (hs : Alike near R s s') :
  Alike near R (do if ← found p then r else s) (do if ← found p then r' else s')
  := by
  apply (isVerbal_found hp).bind_eq
  intro b
  cases b with
  | true => exact hr
  | false => exact hs

end Tokens

theorem alike_untilClosingWithin {R : σ → σ → Prop} {step : σ → Reader σ}
    (hstep : ∀ s s', R s s' → Alike near R (step s) (step s')) (n : Nat) {s s' : σ}
    (hs : R s s') :
  Alike near R (untilClosingWithin step n s) (untilClosingWithin step n s')
  := by
  induction n generalizing s s' with
  | zero => exact hstep _ _ hs
  | succ n ih =>
    apply Alike.ite_found (Token.isVerbal_kind _) (alike_pure hs)
    apply (hstep _ _ hs).bind
    intro a a' ha
    exact ih ha

/-- Repetitions are bounded alike, since as many tokens remain. -/
theorem alike_untilClosing {R : σ → σ → Prop} {step : σ → Reader σ}
    (hstep : ∀ s s', R s s' → Alike near R (step s) (step s')) {s s' : σ} (hs : R s s') :
  Alike near R (untilClosing step s) (untilClosing step s')
  := by
  intro c c' hc
  rw [untilClosing, untilClosing, hc.rest.length_eq]
  apply alike_untilClosingWithin hstep _ hs hc

theorem IsVerbal.repeated {r : Reader Unit} (h : IsVerbal near r) :
  IsVerbal near (repeated r)
  := alike_untilClosing (fun _ _ _ => h) rfl

end Reader

end PlanLang
