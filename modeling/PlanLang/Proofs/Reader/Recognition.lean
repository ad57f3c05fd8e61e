import PlanLang.Proofs.Section.Value

/-!
# Readers that recognize tokens

A reader recognizes the tokens that it reads to come to its end.  It does so whatever follows them,
and where they are cut off it runs out of tokens: its error says that the source has ended, and is
at the last token.  What a reader recognizes follows from what the readers recognize that it is made
of.
-/

namespace PlanLang

/-- A list that is made of two parts is cut off in the first part, or behind it. -/
theorem exists_cut {α : Type} {us vs front back : List α} (h : us ++ vs = front ++ back) :
  (∃ ws, ws ≠ [] ∧ us = front ++ ws) ∨ ∃ ws, front = us ++ ws ∧ vs = ws ++ back
  := by
  rcases List.append_eq_append_iff.mp h with ⟨ws, hfront, hvs⟩ | ⟨ws, hus, hback⟩
  · exact .inr ⟨ws, hfront, hvs⟩
  · by_cases hws : ws = []
    · subst hws
      rw [List.append_nil] at hus
      exact .inr ⟨[], by rw [hus, List.append_nil], hback.symm⟩
    · exact .inl ⟨ws, hws, hus⟩

/-- The position of the last of the tokens, or `start` if there are none. -/
def Token.lastPosition (start : Position) (ts : List Token) : Position :=
  (ts.getLast?.map position).getD start

theorem Token.lastPosition_append (start : Position) (ts us : List Token) :
  lastPosition start (ts ++ us) = lastPosition (lastPosition start ts) us
  := by
  cases h : us.getLast? with
  | none => simp [lastPosition, List.getLast?_eq_none_iff.mp h]
  | some t => simp [lastPosition, h]

theorem Token.lastPosition_cons (start : Position) (t : Token) (ts : List Token) :
  lastPosition start (t :: ts) = lastPosition t.position ts
  := lastPosition_append start [t] ts

theorem Token.lastPosition_concat (start : Position) (ts : List Token) (t : Token) :
  lastPosition start (ts ++ [t]) = t.position
  := lastPosition_append start ts [t]

/-- The cursor `c'` is reached from `c` by reading the tokens `ts`. -/
structure Cursor.Passes (c : Cursor) (ts : List Token) (c' : Cursor) : Prop where
  rest : c.rest = ts ++ c'.rest
  last : c'.last = Token.lastPosition c.last ts

namespace Cursor.Passes

variable {c c' c'' : Cursor} {ts us : List Token}

theorem refl (c : Cursor) :
  c.Passes [] c
  := ⟨rfl, rfl⟩

theorem trans (h : c.Passes ts c') (h' : c'.Passes us c'') :
  c.Passes (ts ++ us) c''
  := by
  constructor
  · rw [h.rest, h'.rest, List.append_assoc]
  · rw [h'.last, h.last, Token.lastPosition_append]

/-- Where one cursor is reached by reading nothing, it is the other one. -/
theorem eq_of_nil (h : c.Passes [] c') :
  c' = c
  := by
  obtain ⟨hrest, hlast⟩ := h
  obtain ⟨rest, last⟩ := c
  obtain ⟨rest', last'⟩ := c'
  cases hrest
  cases hlast
  rfl

/-- Reading one token is going past it. -/
theorem single_iff {t : Token} :
  c.Passes [t] c' ↔ ∃ rest, c.rest = t :: rest ∧ c' = ⟨rest, t.position⟩
  := by
  constructor
  · rintro ⟨hrest, hlast⟩
    obtain ⟨rest', last'⟩ := c'
    exact ⟨rest', hrest, congrArg (Cursor.mk rest') hlast⟩
  · rintro ⟨rest, hrest, rfl⟩
    exact ⟨hrest, rfl⟩

end Cursor.Passes

namespace Reader

variable {α β σ : Type}

/-- The reader comes to the end of the tokens, where it needs another one. -/
def RunsOut (r : Reader α) (c : Cursor) : Prop :=
  ∃ options, (r c).2 = .error ⟨Token.lastPosition c.last c.rest, .expected none options⟩

/-- The reader reads exactly tokens for which `G` holds, with its value, whatever comes after them.
Where such tokens are cut off, it runs out of tokens. -/
structure Recognizes (r : Reader α) (G : α → List Token → Prop) : Prop where
  ok_iff : ∀ {c a c'}, (r c).2 = .ok (a, c') ↔ ∃ ts, G a ts ∧ c.Passes ts c'
  cut : ∀ {a front back}, G a (front ++ back) → back ≠ [] → ∀ last, r.RunsOut ⟨front, last⟩

theorem Recognizes.imp {r : Reader α} {G H : α → List Token → Prop} (h : r.Recognizes G)
    (hGH : ∀ a ts, G a ts ↔ H a ts) :
  r.Recognizes H
  := by
  obtain rfl : G = H := by
    funext a ts
    exact propext (hGH a ts)
  exact h

/-- What is recognized is read, whatever follows. -/
theorem Recognizes.append {r : Reader α} {G : α → List Token → Prop} (h : r.Recognizes G) {a : α}
    {ts : List Token} (ha : G a ts) (rest : List Token) (last : Position) :
  (r ⟨ts ++ rest, last⟩).2 = .ok (a, ⟨rest, Token.lastPosition last ts⟩)
  := h.ok_iff.mpr ⟨ts, ha, rfl, rfl⟩

/-! ### Sequences of readers -/

theorem bind_eq_ok_iff {r : Reader α} {f : α → Reader β} {c c'' : Cursor} {b : β} :
  ((r >>= f) c).2 = .ok (b, c'') ↔ ∃ a c', (r c).2 = .ok (a, c') ∧ (f a c').2 = .ok (b, c'')
  := by
  constructor
  · exact exists_of_bind
  · rintro ⟨a, c', hr, hf⟩
    rw [(bind_of_ok f hr).2, hf]

theorem RunsOut.bind {r : Reader α} {c : Cursor} (h : r.RunsOut c) (f : α → Reader β) :
  (r >>= f).RunsOut c
  := by
  obtain ⟨options, herror⟩ := h
  exact ⟨options, (bind_of_error f herror).2⟩

/-- A reader that runs out of tokens does so too after another one. -/
theorem RunsOut.bind_of_ok {r : Reader α} {f : α → Reader β} {a : α} {ts rest : List Token}
    {last : Position}
    (hr : (r ⟨ts ++ rest, last⟩).2 = .ok (a, ⟨rest, Token.lastPosition last ts⟩))
    (h : (f a).RunsOut ⟨rest, Token.lastPosition last ts⟩) :
  (r >>= f).RunsOut ⟨ts ++ rest, last⟩
  := by
  obtain ⟨options, herror⟩ := h
  refine ⟨options, ?_⟩
  rw [(Reader.bind_of_ok f hr).2, herror, Token.lastPosition_append]

/-- A reader runs out of tokens if the one before it has read all of them. -/
theorem RunsOut.bind_of_ok_nil {r : Reader α} {f : α → Reader β} {a : α} {ts : List Token}
    {last : Position} (hr : (r ⟨ts, last⟩).2 = .ok (a, ⟨[], Token.lastPosition last ts⟩))
    (h : (f a).RunsOut ⟨[], Token.lastPosition last ts⟩) :
  (r >>= f).RunsOut ⟨ts, last⟩
  := by
  obtain ⟨options, herror⟩ := h
  exact ⟨options, ((Reader.bind_of_ok f hr).2).trans herror⟩

/-- One reader after another recognizes the tokens of the one and those of the other. -/
theorem Recognizes.bind {r : Reader α} {f : α → Reader β} {G : α → List Token → Prop}
    {H : α → β → List Token → Prop} (hr : r.Recognizes G) (hf : ∀ a, (f a).Recognizes (H a)) :
  (r >>= f).Recognizes fun b ts => ∃ a us vs, ts = us ++ vs ∧ G a us ∧ H a b vs
  := by
  constructor
  · intro c b c''
    rw [bind_eq_ok_iff]
    constructor
    · rintro ⟨a, c', ha, hb⟩
      obtain ⟨us, hus, hpasses⟩ := hr.ok_iff.mp ha
      obtain ⟨vs, hvs, hpasses'⟩ := (hf a).ok_iff.mp hb
      exact ⟨us ++ vs, ⟨a, us, vs, rfl, hus, hvs⟩, hpasses.trans hpasses'⟩
    · rintro ⟨_, ⟨a, us, vs, rfl, hus, hvs⟩, hrest, hlast⟩
      rw [List.append_assoc] at hrest
      rw [Token.lastPosition_append] at hlast
      exact ⟨a, ⟨vs ++ c''.rest, Token.lastPosition c.last us⟩,
        hr.ok_iff.mpr ⟨us, hus, hrest, rfl⟩, (hf a).ok_iff.mpr ⟨vs, hvs, rfl, hlast⟩⟩
  · rintro b front back ⟨a, us, vs, heq, hus, hvs⟩ hback last
    rcases exists_cut heq.symm with ⟨ws, hws, rfl⟩ | ⟨ws, rfl, rfl⟩
    · apply RunsOut.bind (hr.cut hus hws last)
    · apply RunsOut.bind_of_ok (hr.append hus ws last)
      apply (hf a).cut hvs hback

theorem recognizes_pure (a : α) :
  (pure a : Reader α).Recognizes fun b ts => b = a ∧ ts = []
  := by
  constructor
  · intro c b c'
    constructor
    · intro h
      cases h
      exact ⟨[], ⟨rfl, rfl⟩, .refl c⟩
    · rintro ⟨_, ⟨rfl, rfl⟩, hpasses⟩
      rw [hpasses.eq_of_nil]
      rfl
  · rintro _ front back ⟨-, hnil⟩ hback
    exact absurd (List.append_eq_nil_iff.mp hnil).2 hback

theorem recognizes_stop (e : SyntaxError) :
  (stop e : Reader α).Recognizes fun _ _ => False
  where
  ok_iff := by
    intro c a c'
    constructor
    · intro h
      contradiction
    · rintro ⟨_, h, -⟩
      contradiction
  cut := nofun

/-- A value that is given in the end. -/
theorem Recognizes.map {r : Reader α} {G : α → List Token → Prop} (h : r.Recognizes G)
    (f : α → β) :
  (do return f (← r)).Recognizes fun b ts => ∃ a, G a ts ∧ b = f a
  := by
  apply (h.bind fun a => recognizes_pure (f a)).imp
  intro b ts
  constructor
  · rintro ⟨a, us, vs, rfl, hus, rfl, rfl⟩
    exact ⟨a, by rwa [List.append_nil], rfl⟩
  · rintro ⟨a, hts, rfl⟩
    exact ⟨a, ts, [], (List.append_nil ts).symm, hts, rfl, rfl⟩

/-! ### Single tokens -/

/-- A reader that goes past the next token if it satisfies the condition, and else stops. -/
theorem recognizes_token {r : Reader Token} {p : Token → Bool} (options : List String)
    (hnil : ∀ last, (r ⟨[], last⟩).2 = .error ⟨last, .expected none options⟩)
    (hpos : ∀ t rest last, p t → (r ⟨t :: rest, last⟩).2 = .ok (t, ⟨rest, t.position⟩))
    (hneg : ∀ t rest last, p t = false → ∃ e, (r ⟨t :: rest, last⟩).2 = .error e) :
  r.Recognizes fun t ts => p t ∧ ts = [t]
  := by
  constructor
  · rintro ⟨rest, last⟩ t c'
    constructor
    · intro h
      cases rest with
      | nil =>
        rw [hnil] at h
        contradiction
      | cons s rest =>
        by_cases hs : p s
        · rw [hpos s rest last hs] at h
          cases h
          exact ⟨[t], ⟨hs, rfl⟩, rfl, rfl⟩
        · obtain ⟨e, herror⟩ := hneg s rest last (Bool.eq_false_of_not_eq_true hs)
          rw [herror] at h
          contradiction
    · rintro ⟨_, ⟨ht, rfl⟩, hpasses⟩
      obtain ⟨rest', rfl, rfl⟩ := Cursor.Passes.single_iff.mp hpasses
      apply hpos t rest' last ht
  · rintro t front back ⟨-, heq⟩ hback last
    cases front with
    | nil => exact ⟨options, hnil last⟩
    | cons s front =>
      have htail := (List.cons.inj heq).2
      exact absurd (List.append_eq_nil_iff.mp htail).2 hback

theorem recognizes_expect (p : Token → Bool) (options : List String) :
  (expect p options).Recognizes fun t ts => p t ∧ ts = [t]
  := by
  apply recognizes_token options
  · intro last
    rfl
  · intro t rest last ht
    simp [expect, ht]
  · intro t rest last ht
    simp [expect, ht]

theorem recognizes_expectAfter (p : Token → Bool) (options : List String) :
  (expectAfter p options).Recognizes fun t ts => p t ∧ ts = [t]
  := by
  apply recognizes_token options
  · intro last
    rfl
  · intro t rest last ht
    simp [expectAfter, ht]
  · intro t rest last ht
    simp [expectAfter, ht]

theorem recognizes_expectKind (kind : TokenKind) :
  (expectKind kind).Recognizes fun t ts => t.kind = kind ∧ ts = [t]
  := by
  apply (recognizes_expect _ _).imp
  intro t ts
  rw [decide_eq_true_eq]

theorem recognizes_opening :
  opening.Recognizes fun _ ts => ∃ t : Token, t.kind = .opening ∧ ts = [t]
  := by
  apply ((recognizes_expectKind .opening).map fun _ => ()).imp
  intro _ ts
  simp

theorem recognizes_closing :
  closing.Recognizes fun _ ts => ∃ t : Token, t.kind = .closing ∧ ts = [t]
  := by
  apply ((recognizes_expectKind .closing).map fun _ => ()).imp
  intro _ ts
  simp

/-! ### Repetition -/

/-- A closing parenthesis ends a repetition. -/
theorem untilClosingWithin_closing (step : σ → Reader σ) (n : Nat) (s : σ) {t : Token}
    (ht : t.kind = .closing) (rest : List Token) (last : Position) :
  (untilClosingWithin step (n + 1) s ⟨t :: rest, last⟩).2 = .ok (s, ⟨rest, t.position⟩)
  := by
  simp [untilClosingWithin, found, accept, bind_apply, pure_apply, ht]

/-- Without a closing parenthesis, a repetition goes on with a step. -/
theorem untilClosingWithin_step (step : σ → Reader σ) (n : Nat) (s : σ) {c : Cursor}
    (h : ∀ t ∈ c.rest.head?, t.kind ≠ .closing) :
  (untilClosingWithin step (n + 1) s c).2 = ((step s >>= untilClosingWithin step n) c).2
  := by
  obtain ⟨rest, last⟩ := c
  cases rest with
  | nil => simp [untilClosingWithin, found, accept, bind_apply, pure_apply]
  | cons t rest =>
    have ht : t.kind ≠ .closing := h t rfl
    simp [untilClosingWithin, found, accept, bind_apply, pure_apply, ht]

/-- Without a closing parenthesis, a repetition runs out of tokens if a step does, or else the
repetition that goes on after it. -/
theorem RunsOut.untilClosingWithin_succ {step : σ → Reader σ} {n : Nat} {s : σ} {c : Cursor}
    (hrun : (step s >>= untilClosingWithin step n).RunsOut c)
    (h : ∀ t ∈ c.rest.head?, t.kind ≠ .closing) :
  (untilClosingWithin step (n + 1) s).RunsOut c
  := by
  obtain ⟨options, herror⟩ := hrun
  exact ⟨options, (untilClosingWithin_step step n s h).trans herror⟩

/-- A repetition needs a token if its steps do. -/
theorem runsOut_untilClosingWithin {step : σ → Reader σ}
    (hstep : ∀ s last, (step s).RunsOut ⟨[], last⟩) (n : Nat) (s : σ) (last : Position) :
  (untilClosingWithin step n s).RunsOut ⟨[], last⟩
  := by
  cases n with
  | zero => apply hstep
  | succ n =>
    apply ((hstep s last).bind (untilClosingWithin step n)).untilClosingWithin_succ
    simp

/-- The steps of a repetition recognize tokens of which the first is not a closing parenthesis, and
each of them needs a token. -/
structure AreSteps (step : σ → Reader σ) (G : σ → σ → List Token → Prop) : Prop where
  recognizes : ∀ s, (step s).Recognizes (G s)
  head : ∀ {s s' ts}, G s s' ts → ∃ t us, ts = t :: us ∧ t.kind ≠ .closing
  empty : ∀ s last, (step s).RunsOut ⟨[], last⟩

/-- The tokens of steps, one after the other, and the closing parenthesis after them. -/
inductive Repeats (G : σ → σ → List Token → Prop) : σ → σ → List Token → Prop where
  | close {s : σ} {t : Token} (ht : t.kind = .closing) :
    Repeats G s s [t]
  | step {s s₁ s' : σ} {ts us : List Token} (hstep : G s s₁ ts) (hrest : Repeats G s₁ s' us) :
    Repeats G s s' (ts ++ us)

namespace AreSteps

variable {step : σ → Reader σ} {G : σ → σ → List Token → Prop}

theorem head_ne_closing (h : AreSteps step G) {s s' : σ} {ts : List Token} (hts : G s s' ts)
    (rest : List Token) :
  ∀ t ∈ (ts ++ rest).head?, t.kind ≠ .closing
  := by
  obtain ⟨u, us, rfl, hu⟩ := h.head hts
  intro t ht
  obtain rfl : u = t := by simpa using ht
  exact hu

theorem ne_nil (h : AreSteps step G) {s s' : σ} {ts : List Token} (hts : Repeats G s s' ts) :
  ts ≠ []
  := by
  cases hts with
  | close => exact List.cons_ne_nil _ _
  | step hstep _ =>
    obtain ⟨t, us, rfl, -⟩ := h.head hstep
    exact List.cons_ne_nil _ _

/-- A repetition of at least as many steps as there are tokens reads the tokens of steps. -/
theorem untilClosingWithin_ok_iff (h : AreSteps step G) {n : Nat} {s s' : σ} {c c' : Cursor}
    (hn : c.rest.length ≤ n) :
  (untilClosingWithin step n s c).2 = .ok (s', c') ↔ ∃ ts, Repeats G s s' ts ∧ c.Passes ts c'
  := by
  induction n generalizing s c with
  | zero =>
    have hempty : c.rest = [] := List.eq_nil_of_length_eq_zero (Nat.le_zero.mp hn)
    constructor
    · intro hok
      obtain ⟨ts, hts, hpasses⟩ := (h.recognizes s).ok_iff.mp hok
      obtain ⟨t, us, rfl, -⟩ := h.head hts
      have hrest := hpasses.rest
      rw [hempty] at hrest
      contradiction
    · rintro ⟨ts, hts, hpasses⟩
      have hrest := hpasses.rest
      rw [hempty] at hrest
      exact absurd (List.append_eq_nil_iff.mp hrest.symm).1 (h.ne_nil hts)
  | succ n ih =>
    -- a step reads at least one token
    have hlength : ∀ {s₁ ts} {c₁ : Cursor}, G s s₁ ts → c.Passes ts c₁ → c₁.rest.length ≤ n := by
      intro s₁ ts c₁ hts hpasses
      obtain ⟨t, us, rfl, -⟩ := h.head hts
      rw [hpasses.rest, List.length_append, List.length_cons] at hn
      omega
    constructor
    · intro hok
      by_cases hclosing : ∃ t ∈ c.rest.head?, t.kind = .closing
      · obtain ⟨t, hhead, ht⟩ := hclosing
        obtain ⟨rest, last⟩ := c
        obtain ⟨rest', rfl⟩ := List.head?_eq_some_iff.mp hhead
        rw [untilClosingWithin_closing step n s ht] at hok
        cases hok
        exact ⟨[t], .close ht, rfl, rfl⟩
      · have hnot : ∀ t ∈ c.rest.head?, t.kind ≠ .closing :=
          fun t ht hkind => hclosing ⟨t, ht, hkind⟩
        rw [untilClosingWithin_step step n s hnot, bind_eq_ok_iff] at hok
        obtain ⟨s₁, c₁, hfirst, hrest⟩ := hok
        obtain ⟨ts, hts, hpasses⟩ := (h.recognizes s).ok_iff.mp hfirst
        obtain ⟨us, hus, hpasses'⟩ := (ih (hlength hts hpasses)).mp hrest
        exact ⟨ts ++ us, .step hts hus, hpasses.trans hpasses'⟩
    · rintro ⟨_, hts, hpasses⟩
      cases hts with
      | @close _ t ht =>
        obtain ⟨rest, last⟩ := c
        obtain ⟨rest', rfl, rfl⟩ := Cursor.Passes.single_iff.mp hpasses
        exact untilClosingWithin_closing step n s' ht rest' last
      | @step _ s₁ _ ts us hfirst hrest =>
        obtain ⟨hcrest, hlast⟩ := hpasses
        rw [List.append_assoc] at hcrest
        rw [Token.lastPosition_append] at hlast
        have hpasses : c.Passes ts ⟨us ++ c'.rest, Token.lastPosition c.last ts⟩ := ⟨hcrest, rfl⟩
        have hhead := h.head_ne_closing hfirst (us ++ c'.rest)
        rw [← hcrest] at hhead
        rw [untilClosingWithin_step step n s hhead, bind_eq_ok_iff]
        exact ⟨s₁, _, (h.recognizes s).ok_iff.mpr ⟨ts, hfirst, hpasses⟩,
          (ih (hlength hfirst hpasses)).mpr ⟨us, hrest, rfl, hlast⟩⟩

/-- A repetition runs out of tokens where the tokens of its steps are cut off. -/
theorem untilClosingWithin_cut (h : AreSteps step G) {s s' : σ} {ts : List Token}
    (hts : Repeats G s s' ts) {n : Nat} {front back : List Token} (heq : ts = front ++ back)
    (hback : back ≠ []) (hn : front.length ≤ n) (last : Position) :
  (untilClosingWithin step n s).RunsOut ⟨front, last⟩
  := by
  induction hts generalizing n front last with
  | close ht =>
    cases front with
    | nil => exact runsOut_untilClosingWithin h.empty n _ last
    | cons t front =>
      have htail := (List.cons.inj heq).2
      exact absurd (List.append_eq_nil_iff.mp htail.symm).2 hback
  | @step s s₁ s' ts us hstep hrest ih =>
    cases n with
    | zero =>
      obtain rfl : front = [] := List.eq_nil_of_length_eq_zero (Nat.le_zero.mp hn)
      apply h.empty
    | succ n =>
      obtain ⟨t, ts', hcons, ht⟩ := h.head hstep
      have hhead : ∀ u ∈ front.head?, u.kind ≠ .closing := by
        intro u hu
        obtain ⟨front', rfl⟩ := List.head?_eq_some_iff.mp hu
        rw [hcons] at heq
        obtain rfl : t = u := (List.cons.inj heq).1
        exact ht
      refine RunsOut.untilClosingWithin_succ ?_ hhead
      rcases exists_cut heq with ⟨ws, hws, rfl⟩ | ⟨ws, rfl, rfl⟩
      · apply RunsOut.bind ((h.recognizes s).cut hstep hws last)
      · apply RunsOut.bind_of_ok ((h.recognizes s).append hstep ws last)
        apply ih rfl
        rw [hcons, List.length_append, List.length_cons] at hn
        omega

/-- A repetition recognizes the tokens of its steps and the parenthesis after them. -/
theorem recognizes_untilClosing (h : AreSteps step G) (s : σ) :
  (untilClosing step s).Recognizes (Repeats G s)
  where
  ok_iff := h.untilClosingWithin_ok_iff le_rfl
  cut hts hback last := h.untilClosingWithin_cut hts rfl hback le_rfl last

end AreSteps

/-! ### Readers of all tokens -/

/-- The reader reads all tokens, with its value, if `G` holds for them, and in no other case.  Where
such tokens are cut off, it runs out of tokens, and where others follow, it refuses the first of
these. -/
structure Exhausts (r : Reader α) (G : α → List Token → Prop) : Prop where
  ok_iff : ∀ {c a c'}, (r c).2 = .ok (a, c') ↔
    G a c.rest ∧ c' = ⟨[], Token.lastPosition c.last c.rest⟩
  cut : ∀ {a front back}, G a (front ++ back) → back ≠ [] → ∀ last, r.RunsOut ⟨front, last⟩
  extra : ∀ {a ts}, G a ts → ∀ t rest last,
    (r ⟨ts ++ t :: rest, last⟩).2 = .error ⟨t.position, .extraInput t.text⟩

theorem Exhausts.imp {r : Reader α} {G H : α → List Token → Prop} (h : r.Exhausts G)
    (hGH : ∀ a ts, G a ts ↔ H a ts) :
  r.Exhausts H
  := by
  obtain rfl : G = H := by
    funext a ts
    exact propext (hGH a ts)
  exact h

/-- A reader of all tokens remains one if some tokens are read before. -/
theorem Exhausts.bind {r : Reader α} {f : α → Reader β} {G : α → List Token → Prop}
    {H : α → β → List Token → Prop} (hr : r.Recognizes G) (hf : ∀ a, (f a).Exhausts (H a)) :
  (r >>= f).Exhausts fun b ts => ∃ a us vs, ts = us ++ vs ∧ G a us ∧ H a b vs
  := by
  constructor
  · intro c b c''
    rw [bind_eq_ok_iff]
    constructor
    · rintro ⟨a, c', ha, hb⟩
      obtain ⟨us, hus, hpasses⟩ := hr.ok_iff.mp ha
      obtain ⟨hvs, rfl⟩ := (hf a).ok_iff.mp hb
      refine ⟨⟨a, us, c'.rest, hpasses.rest, hus, hvs⟩, ?_⟩
      rw [hpasses.rest, hpasses.last, Token.lastPosition_append]
    · rintro ⟨⟨a, us, vs, hrest, hus, hvs⟩, rfl⟩
      rw [hrest, Token.lastPosition_append]
      exact ⟨a, ⟨vs, Token.lastPosition c.last us⟩, hr.ok_iff.mpr ⟨us, hus, hrest, rfl⟩,
        (hf a).ok_iff.mpr ⟨hvs, rfl⟩⟩
  · rintro b front back ⟨a, us, vs, heq, hus, hvs⟩ hback last
    rcases exists_cut heq.symm with ⟨ws, hws, rfl⟩ | ⟨ws, rfl, rfl⟩
    · apply RunsOut.bind (hr.cut hus hws last)
    · apply RunsOut.bind_of_ok (hr.append hus ws last)
      apply (hf a).cut hvs hback
  · rintro b _ ⟨a, us, vs, rfl, hus, hvs⟩ t rest last
    have hfirst := hr.append hus (vs ++ t :: rest) last
    rw [List.append_assoc, (bind_of_ok f hfirst).2]
    apply (hf a).extra hvs

theorem Exhausts.map {r : Reader α} {G : α → List Token → Prop} (h : r.Exhausts G) (f : α → β) :
  (do return f (← r)).Exhausts fun b ts => ∃ a, G a ts ∧ b = f a
  := by
  constructor
  · intro c b c'
    rw [bind_eq_ok_iff]
    constructor
    · rintro ⟨a, c₁, ha, hpure⟩
      cases hpure
      obtain ⟨hrest, hc⟩ := h.ok_iff.mp ha
      exact ⟨⟨a, hrest, rfl⟩, hc⟩
    · rintro ⟨⟨a, hrest, rfl⟩, hc⟩
      exact ⟨a, c', h.ok_iff.mpr ⟨hrest, hc⟩, rfl⟩
  · rintro b front back ⟨a, hts, -⟩ hback last
    apply RunsOut.bind (h.cut hts hback last)
  · rintro b ts ⟨a, hts, -⟩ t rest last
    exact (bind_of_error _ (h.extra hts t rest last)).2

end Reader

end PlanLang
