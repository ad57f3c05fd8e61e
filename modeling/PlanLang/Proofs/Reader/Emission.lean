import Mathlib.Computability.Language
import Mathlib.Order.CompletePartialOrder
import PlanLang.Reader

/-!
# What readers report

The reports of a reader make up a language of steps: a reader that comes to its end reports a
member of the language, and one that stops has reported the beginning of a member.  The language
of a reader follows from those of the readers that it is made of.
-/

open Computability

namespace PlanLang

/-- The error is in the text that is read, and not in a construct built from it. -/
def SyntaxError.isTextual (e : SyntaxError) : Bool :=
  match e.kind with
  | .construct _ => false
  | _ => true

namespace Reader

variable {α β σ : Type}

/-- The steps that a reader reports from a cursor on. -/
def steps (r : Reader α) (c : Cursor) : List Step :=
  (r c).1.map Prod.snd

/-- From the cursor `c` on, the reader reports a member of `L`.  If it stops, it does so because
of the text, and after nothing or the beginning of a member of `L`. -/
structure EmitsAt (r : Reader α) (c : Cursor) (L : Language Step) : Prop where
  whole : ∀ {a c'}, (r c).2 = .ok (a, c') → r.steps c ∈ L
  part : ∀ {e}, (r c).2 = .error e →
    e.isTextual ∧ (r.steps c = [] ∨ ∃ ss ∈ L, r.steps c <+: ss)

/-- From each cursor on, the reader reports a member of `L`. -/
def Emits (r : Reader α) (L : Language Step) : Prop :=
  ∀ c, r.EmitsAt c L

/-! ### Sequences of readers -/

theorem bind_of_ok {r : Reader α} {c c' : Cursor} {a : α} (f : α → Reader β)
    (h : (r c).2 = .ok (a, c')) :
  (r >>= f).steps c = r.steps c ++ (f a).steps c' ∧ ((r >>= f) c).2 = (f a c').2
  := by
  cases hr : r c with
  | mk ps outcome =>
    rw [hr] at h
    obtain rfl : outcome = .ok (a, c') := h
    simp [steps, bind_apply, hr]

theorem bind_of_error {r : Reader α} {c : Cursor} {e : SyntaxError} (f : α → Reader β)
    (h : (r c).2 = .error e) :
  (r >>= f).steps c = r.steps c ∧ ((r >>= f) c).2 = .error e
  := by
  cases hr : r c with
  | mk ps outcome =>
    rw [hr] at h
    obtain rfl : outcome = .error e := h
    simp [steps, bind_apply, hr]

/-- Three readers one after another can be grouped either way. -/
theorem bind_assoc {γ : Type} (r : Reader α) (f : α → Reader β) (g : β → Reader γ) :
  (r >>= f) >>= g = r >>= fun a => f a >>= g
  := by
  funext c
  simp only [bind_apply]
  rcases r c with ⟨ps, e | ⟨a, c'⟩⟩
  · rfl
  · simp only
    rcases f a c' with ⟨ps', e | ⟨b, c''⟩⟩
    · rfl
    · simp [List.append_assoc]

/-- A reader without a value can be followed by nothing. -/
theorem bind_pure_unit (r : Reader Unit) :
  (r >>= fun _ => pure ()) = r
  := by
  funext c
  simp only [bind_apply, pure_apply]
  rcases r c with ⟨ps, e | ⟨a, c'⟩⟩
  · rfl
  · simp

/-- A reader with a smaller language has the larger one too. -/
theorem EmitsAt.mono {r : Reader α} {c : Cursor} {L M : Language Step} (h : r.EmitsAt c L)
    (hLM : L ≤ M) :
  r.EmitsAt c M
  := by
  constructor
  · intro a c' hok
    apply hLM (h.whole hok)
  · intro e herror
    obtain ⟨htext, hnil | ⟨ss, hss, hprefix⟩⟩ := h.part herror
    · exact ⟨htext, .inl hnil⟩
    · exact ⟨htext, .inr ⟨ss, hLM hss, hprefix⟩⟩

/-- One reader after another reports a member of the first language and one of the second. -/
theorem EmitsAt.bind {r : Reader α} {f : α → Reader β} {c : Cursor} {L M : Language Step}
    (hr : r.EmitsAt c L) (hf : ∀ a c', (r c).2 = .ok (a, c') → (f a).EmitsAt c' M)
    (hM : ∃ ss, ss ∈ M) :
  (r >>= f).EmitsAt c (L * M)
  := by
  obtain ⟨ms, hms⟩ := hM
  cases h : (r c).2 with
  | error e =>
    obtain ⟨hsteps, hout⟩ := bind_of_error f h
    constructor
    · intro a c' hok
      rw [hout] at hok
      contradiction
    · intro e' herror
      obtain rfl : e = e' := by rwa [hout, Except.error.injEq] at herror
      rw [hsteps]
      obtain ⟨htext, hnil | ⟨ss, hss, hprefix⟩⟩ := hr.part h
      · exact ⟨htext, .inl hnil⟩
      · exact ⟨htext, .inr ⟨ss ++ ms, Language.append_mem_mul hss hms,
          hprefix.trans (List.prefix_append ss ms)⟩⟩
  | ok p =>
    obtain ⟨a, c'⟩ := p
    obtain ⟨hsteps, hout⟩ := bind_of_ok f h
    have hsecond := hf a c' h
    constructor
    · intro b c'' hok
      rw [hout] at hok
      rw [hsteps]
      apply Language.append_mem_mul (hr.whole h) (hsecond.whole hok)
    · intro e herror
      rw [hout] at herror
      rw [hsteps]
      obtain ⟨htext, hnil | ⟨ss, hss, hprefix⟩⟩ := hsecond.part herror
      · rw [hnil, List.append_nil]
        exact ⟨htext, .inr ⟨r.steps c ++ ms, Language.append_mem_mul (hr.whole h) hms,
          List.prefix_append _ _⟩⟩
      · exact ⟨htext, .inr ⟨r.steps c ++ ss, Language.append_mem_mul (hr.whole h) hss,
          List.prefix_append_right_inj _ |>.mpr hprefix⟩⟩

/-- A reader that stops before it reports anything has any language. -/
theorem emitsAt_of_error {r : Reader α} {c : Cursor} {e : SyntaxError} (L : Language Step)
    (h : r c = ([], .error e)) (he : e.isTextual) :
  r.EmitsAt c L
  := by
  constructor
  · intro a c' hok
    rw [h] at hok
    contradiction
  · intro e' herror
    obtain rfl : e = e' := by rwa [h, Except.error.injEq] at herror
    exact ⟨he, .inl (by rw [steps, h]; rfl)⟩

/-! ### Silent readers -/

/-- The reader reports nothing, and stops only because of the text. -/
structure Silent (r : Reader α) : Prop where
  steps_eq : ∀ c, r.steps c = []
  textual : ∀ {c e}, (r c).2 = .error e → e.isTextual

/-- What follows a silent reader has the whole language. -/
theorem Silent.bindAt {r : Reader α} (hr : r.Silent) {f : α → Reader β} {c : Cursor}
    {L : Language Step} (hf : ∀ a c', (r c).2 = .ok (a, c') → (f a).EmitsAt c' L) :
  (r >>= f).EmitsAt c L
  := by
  cases h : (r c).2 with
  | error e =>
    obtain ⟨hsteps, hout⟩ := bind_of_error f h
    constructor
    · intro a c' hok
      rw [hout] at hok
      contradiction
    · intro e' herror
      obtain rfl : e = e' := by rwa [hout, Except.error.injEq] at herror
      exact ⟨hr.textual h, .inl (hsteps.trans (hr.steps_eq c))⟩
  | ok p =>
    obtain ⟨a, c'⟩ := p
    obtain ⟨hsteps, hout⟩ := bind_of_ok f h
    rw [hr.steps_eq, List.nil_append] at hsteps
    have hrest := hf a c' h
    constructor
    · intro b c'' hok
      rw [hout] at hok
      rw [hsteps]
      apply hrest.whole hok
    · intro e herror
      rw [hout] at herror
      rw [hsteps]
      apply hrest.part herror

theorem Silent.bind {r : Reader α} (hr : r.Silent) {f : α → Reader β} (hf : ∀ a, (f a).Silent) :
  (r >>= f).Silent
  := by
  constructor
  · intro c
    cases h : (r c).2 with
    | error e => rw [(bind_of_error f h).1, hr.steps_eq]
    | ok p => rw [(bind_of_ok f h).1, hr.steps_eq, (hf p.1).steps_eq, List.append_nil]
  · intro c e herror
    cases h : (r c).2 with
    | error e' =>
      obtain rfl : e' = e := by rwa [(bind_of_error f h).2, Except.error.injEq] at herror
      apply hr.textual h
    | ok p =>
      rw [(bind_of_ok f h).2] at herror
      apply (hf p.1).textual herror

/-- A silent reader reports the empty list of steps. -/
theorem Silent.emits {r : Reader α} (hr : r.Silent) :
  r.Emits 1
  := by
  intro c
  constructor
  · intro a c' _
    rw [hr.steps_eq, Language.mem_one]
  · intro e herror
    exact ⟨hr.textual herror, .inl (hr.steps_eq c)⟩

/-- A silent reader afterwards adds nothing. -/
theorem EmitsAt.bind_silent {r : Reader α} {f : α → Reader β} {c : Cursor} {L : Language Step}
    (hr : r.EmitsAt c L) (hf : ∀ a, (f a).Silent) :
  (r >>= f).EmitsAt c L
  := by
  have h := hr.bind (fun a c' _ => (hf a).emits c') ⟨[], Language.nil_mem_one⟩
  rwa [mul_one] at h

theorem silent_pure (a : α) :
  Silent (pure a)
  where
  steps_eq _ := rfl
  textual h := nomatch h

theorem silent_accept (p : Token → Bool) :
  Silent (accept p)
  := by
  constructor
  · intro c
    unfold steps accept
    split <;> rfl
  · intro c e h
    unfold accept at h
    split at h <;> contradiction

theorem silent_found (p : Token → Bool) :
  Silent (found p)
  := (silent_accept p).bind fun _ => silent_pure _

theorem silent_expect (p : Token → Bool) (options : List String) :
  Silent (expect p options)
  := by
  constructor
  · intro c
    unfold steps expect
    split
    · rfl
    · split <;> rfl
  · intro c e h
    unfold expect at h
    split at h
    · cases h
      rfl
    · split at h
      · contradiction
      · cases h
        rfl

theorem silent_expectAfter (p : Token → Bool) (options : List String) :
  Silent (expectAfter p options)
  := by
  constructor
  · intro c
    unfold steps expectAfter
    split
    · rfl
    · split <;> rfl
  · intro c e h
    unfold expectAfter at h
    split at h
    · cases h
      rfl
    · split at h
      · contradiction
      · cases h
        rfl

theorem silent_opening :
  Silent opening
  := (silent_expect _ _).bind fun _ => silent_pure _

theorem silent_closing :
  Silent closing
  := (silent_expect _ _).bind fun _ => silent_pure _

theorem silent_run (kind : TokenKind) :
  Silent (run kind)
  where
  steps_eq _ := rfl
  textual h := nomatch h

theorem silent_acceptEmptyList :
  Silent acceptEmptyList
  := by
  constructor
  · intro c
    unfold steps acceptEmptyList
    split
    · split <;> rfl
    · rfl
  · intro c e h
    unfold acceptEmptyList at h
    split at h
    · split at h <;> contradiction
    · contradiction

theorem silent_refuse (words : List String) :
  Silent (refuse words)
  := by
  constructor
  · intro c
    unfold steps refuse
    split
    · rfl
    · split <;> rfl
  · intro c e h
    unfold refuse at h
    split at h
    · contradiction
    · split at h
      · cases h
        rfl
      · contradiction

theorem silent_noMore :
  Silent noMore
  := by
  constructor
  · intro c
    unfold steps noMore
    split <;> rfl
  · intro c e h
    unfold noMore at h
    split at h
    · contradiction
    · cases h
      rfl

theorem silent_skipContents :
  Silent skipContents
  where
  steps_eq _ := rfl
  textual h := nomatch h

theorem silent_stop {e : SyntaxError} (he : e.isTextual) :
  Silent (stop e : Reader α)
  where
  steps_eq _ := rfl
  textual h := by
    cases h
    exact he

/-! ### Reporting and enclosing -/

/-- The language with the single report `ss`. -/
def only (ss : List Step) : Language Step :=
  {ss}

/-- The reports of `L` between the entering and the leaving of a construct. -/
def enclosed (c : Construct) (L : Language Step) : Language Step :=
  {ss | ∃ ms ∈ L, ss = .event (.enter c) :: (ms ++ [.event (.leave c)])}

theorem emits_report (s : Step) :
  (report s).Emits (only [s])
  := by
  intro c
  constructor
  · intro a c' _
    rfl
  · intro e h
    contradiction

/-- A step that is reported first is the first of the whole report. -/
theorem EmitsAt.report_bind {s : Step} {r : Reader α} {c : Cursor} {L : Language Step}
    (h : r.EmitsAt c L) (hL : ∃ ss, ss ∈ L) :
  (do report s; r).EmitsAt c (only [s] * L)
  := by
  apply EmitsAt.bind (emits_report s c) _ hL
  intro a c' hok
  cases hok
  exact h

theorem emits_within {r : Reader Unit} {L : Language Step} (k : Construct) (h : r.Emits L)
    (hL : ∃ ss, ss ∈ L) :
  (within k r).Emits (enclosed k L)
  := by
  intro c
  apply EmitsAt.mono (L := only [.event (.enter k)] * (L * only [.event (.leave k)]))
  · apply EmitsAt.report_bind
    · apply EmitsAt.bind (h c) fun _ c' _ => emits_report _ c'
      exact ⟨_, rfl⟩
    · obtain ⟨ss, hss⟩ := hL
      exact ⟨_, Language.append_mem_mul hss rfl⟩
  · rintro ss ⟨_, rfl, _, ⟨ms, hms, _, rfl, rfl⟩, rfl⟩
    exact ⟨ms, hms, rfl⟩

/-! ### Choices, repetition and nesting -/

/-- A reader that depends on whether the next token satisfies `p`. -/
theorem EmitsAt.ite_found {p : Token → Bool} {r s : Reader α} {c : Cursor} {L : Language Step}
    (hr : ∀ t ts, c.rest = t :: ts → p t → r.EmitsAt ⟨ts, t.position⟩ L)
    (hs : (∀ t ∈ c.rest.head?, p t = false) → s.EmitsAt c L) :
  (do if ← found p then r else s).EmitsAt c L
  := by
  apply (silent_found p).bindAt
  intro b c' hok
  obtain ⟨rest, last⟩ := c
  cases rest with
  | nil =>
    cases hok
    apply hs
    simp
  | cons t ts =>
    by_cases ht : p t
    · obtain ⟨rfl, rfl⟩ : true = b ∧ ⟨ts, t.position⟩ = c' := by
        simpa [found, accept, bind_apply, pure_apply, ht] using hok
      apply hr t ts rfl ht
    · obtain ⟨rfl, rfl⟩ : false = b ∧ ⟨t :: ts, last⟩ = c' := by
        simpa [found, accept, bind_apply, pure_apply, ht] using hok
      apply hs
      simpa using ht

/-- A repeated reader reports a sequence of members of the language. -/
theorem emits_repeated {r : Reader Unit} {L : Language Step} (h : r.Emits L) :
  (repeated r).Emits L∗
  := by
  have hwithin : ∀ n, (untilClosingWithin (fun _ => r) n ()).Emits L∗ := by
    intro n
    induction n with
    | zero =>
      intro c
      apply (h c).mono le_kstar
    | succ n ih =>
      intro c
      apply EmitsAt.ite_found
      · intro t ts _ _
        apply ((silent_pure ()).emits _).mono one_le_kstar
      · intro _
        have hseq := (h c).bind (fun _ c' _ => ih c') ⟨[], Language.nil_mem_kstar L⟩
        apply hseq.mono mul_kstar_le_kstar
  intro c
  have hc := hwithin c.rest.length c
  exact ⟨hc.whole, hc.part⟩

/-- A list that may have lists inside has the language of its contents. -/
theorem emits_nested {contents : Reader Unit → Reader Unit} {L : Language Step}
    (h : ∀ r, r.Emits L → (contents r).Emits L) :
  (nested contents).Emits L
  := by
  have hwithin : ∀ n, (nestedWithin contents n).Emits L := by
    intro n
    induction n with
    | zero =>
      intro c
      apply emitsAt_of_error _ rfl rfl
    | succ n ih =>
      intro c
      apply silent_opening.bindAt fun _ c' _ => h _ ih c'
  intro c
  have hc := hwithin c.rest.length c
  exact ⟨hc.whole, hc.part⟩

theorem silent_untilClosing {step : σ → Reader σ} (h : ∀ s, (step s).Silent) (s : σ) :
  (untilClosing step s).Silent
  := by
  have hwithin : ∀ n s, (untilClosingWithin step n s).Silent := by
    intro n
    induction n with
    | zero => exact h
    | succ n ih =>
      intro s
      apply (silent_found _).bind
      intro b
      cases b with
      | true => apply silent_pure
      | false => exact (h s).bind ih
  constructor
  · intro c
    apply (hwithin c.rest.length s).steps_eq c
  · intro c e he
    apply (hwithin c.rest.length s).textual he

end Reader

end PlanLang
