import PlanLang.Proofs.Reader.Recognition

/-!
# Where errors point

An error reports the text of a token: one that stands where something else is expected, one that
follows the description, or one that begins what is not covered.  It points at this token, or right
before it.  Where the errors of a reader point follows from where those of the readers point that it
is made of.
-/

namespace PlanLang

namespace SyntaxError

/-- The error points at one of the tokens, whose text is the one that it reports.  An error that
reports no text of a token may point anywhere. -/
def PointsAt (ts : List Token) (e : SyntaxError) : Prop :=
  match e.kind with
  | .expected (some text) _ => ∃ t ∈ ts, t.text = text ∧ t.position = e.position
  | .extraInput text => ∃ t ∈ ts, t.text = text ∧ t.position = e.position
  | .unsupported word => ∃ t ∈ ts, sameWord t.text word ∧ t.position = e.position
  | _ => True

/-- The error points at one of the tokens and reports the text of the next one.  It says that one of
some options should be there, and these are among `late`. -/
def PointsBefore (late : List (List String)) (ts : List Token) (e : SyntaxError) : Prop :=
  ∃ before s t after options, ts = before ++ s :: t :: after ∧ options ∈ late ∧
    e = ⟨s.position, .expected (some t.text) options⟩

/-- The error points at the token whose text it reports, or right before it if its options are among
`late`. -/
def IsPlaced (late : List (List String)) (ts : List Token) (e : SyntaxError) : Prop :=
  e.PointsAt ts ∨ e.PointsBefore late ts

end SyntaxError

/-! ### Cursors among tokens -/

/-- The last of the tokens remain at the cursor.  If `behind` is true, then the one before them has
just been read. -/
structure Cursor.Among (ts : List Token) (behind : Bool) (c : Cursor) : Prop where
  suffix : c.rest <:+ ts
  last : behind → ∃ before t, ts = before ++ t :: c.rest ∧ c.last = t.position

namespace Cursor.Among

variable {ts us : List Token} {b : Bool} {c : Cursor} {t : Token}

theorem of_true (h : c.Among ts true) :
  c.Among ts b
  := ⟨h.suffix, fun _ => h.last rfl⟩

theorem mem (h : c.Among ts b) (hrest : c.rest = t :: us) :
  t ∈ ts
  := by
  have hsuffix := h.suffix
  rw [hrest] at hsuffix
  exact hsuffix.subset List.mem_cons_self

/-- The cursor goes past some tokens. -/
theorem of_passes_ne_nil {c' : Cursor} (h : c.Among ts b) (hpasses : c.Passes us c')
    (hne : us ≠ []) :
  c'.Among ts true
  := by
  rcases List.eq_nil_or_concat' us with rfl | ⟨vs, t, rfl⟩
  · contradiction
  · obtain ⟨hrest, hlast⟩ := hpasses
    obtain ⟨before, hbefore⟩ := h.suffix
    rw [Token.lastPosition_concat] at hlast
    have hts : ts = (before ++ vs) ++ t :: c'.rest := by
      rw [← hbefore, hrest]
      simp
    constructor
    · exact ⟨before ++ vs ++ [t], by rw [hts, List.append_assoc]; rfl⟩
    · intro _
      exact ⟨before ++ vs, t, hts, hlast⟩

/-- The cursor goes past tokens, or past none. -/
theorem of_passes {c' : Cursor} (h : c.Among ts b) (hpasses : c.Passes us c') :
  c'.Among ts b
  := by
  by_cases hne : us = []
  · subst hne
    rwa [hpasses.eq_of_nil]
  · exact (h.of_passes_ne_nil hpasses hne).of_true

/-- The cursor goes past the next token. -/
theorem next (h : c.Among ts b) (hrest : c.rest = t :: us) :
  (⟨us, t.position⟩ : Cursor).Among ts true
  := h.of_passes_ne_nil ⟨hrest, rfl⟩ (List.cons_ne_nil t [])

end Cursor.Among

namespace Reader

variable {α β σ : Type}

/-- From a cursor among the tokens, the reader comes to such a cursor again, or it stops with an
error that is placed.  The flags say whether a token has just been read. -/
structure Places (late : List (List String)) (ts : List Token) (b : Bool) (r : Reader α)
    (b' : Bool) : Prop where
  whole : ∀ {c a c'}, c.Among ts b → (r c).2 = .ok (a, c') → c'.Among ts b'
  part : ∀ {c e}, c.Among ts b → (r c).2 = .error e → e.IsPlaced late ts

theorem bind_pure_self (r : Reader α) :
  r >>= pure = r
  := by
  funext c
  rw [bind_apply]
  rcases r c with ⟨ps, e | ⟨a, c'⟩⟩
  · rfl
  · simp [pure_apply]

namespace Places

variable {late : List (List String)} {ts : List Token} {b b' m : Bool}

/-! ### Sequences of readers -/

theorem of_true {r : Reader α} (h : Places late ts b r true) :
  Places late ts b r b'
  where
  whole hc hok := (h.whole hc hok).of_true
  part hc herror := h.part hc herror

/-- What a reader does from any cursor, it does right behind a token. -/
theorem behind {r : Reader α} (h : Places late ts b r b') :
  Places late ts true r b'
  where
  whole hc hok := h.whole hc.of_true hok
  part hc herror := h.part hc.of_true herror

theorem bind {r : Reader α} {f : α → Reader β} (hr : Places late ts b r m)
    (hf : ∀ a, Places late ts m (f a) b') :
  Places late ts b (r >>= f) b'
  := by
  constructor
  · intro c a c'' hc hok
    obtain ⟨a', c', ha, hrest⟩ := exists_of_bind hok
    exact (hf a').whole (hr.whole hc ha) hrest
  · intro c e hc herror
    cases h : (r c).2 with
    | error e' =>
      rw [(bind_of_error f h).2] at herror
      cases herror
      exact hr.part hc h
    | ok p =>
      rw [(bind_of_ok f h).2] at herror
      exact (hf p.1).part (hr.whole hc h) herror

theorem pure (a : α) :
  Places late ts b (Pure.pure a) b
  where
  whole hc hok := by
    cases hok
    exact hc
  part _ herror := nomatch herror

theorem stop {e : SyntaxError} (he : e.IsPlaced late ts) :
  Places late ts b (Reader.stop e : Reader α) b'
  where
  whole _ hok := nomatch hok
  part _ herror := by
    cases herror
    exact he

/-! ### Reporting -/

theorem report (s : Step) :
  Places late ts b (Reader.report s) b
  where
  whole hc hok := by
    cases hok
    exact hc
  part _ herror := nomatch herror

theorem within {r : Reader Unit} (k : Construct) (h : Places late ts b r b') :
  Places late ts b (Reader.within k r) b'
  := (report (.event (.enter k))).bind fun _ => h.bind fun _ => report (.event (.leave k))

theorem named (r : Role) (t : Token) :
  Places late ts b (Reader.named r t) b
  := report (.event (.name r t.name))

theorem allNamed (r : Role) (us : List Token) :
  Places late ts b (Reader.allNamed r us) b
  := by
  induction us with
  | nil => apply pure
  | cons t us ih => exact (named r t).bind fun _ => ih

/-! ### Reading tokens -/

/-- A token is read, or none is. -/
theorem accept_bind {p : Token → Bool} {f : Option Token → Reader α}
    (hsome : ∀ t, Places late ts true (f (some t)) b') (hnone : Places late ts b (f none) b') :
  Places late ts b (accept p >>= f) b'
  := by
  have hnext : ∀ {c}, c.Among ts b → (∃ t c', (accept p c).2 = .ok (some t, c') ∧
      c'.Among ts true) ∨ (accept p c).2 = .ok (none, c) := by
    intro c hc
    cases hrest : c.rest with
    | nil => exact .inr (by simp [accept, hrest])
    | cons t us =>
      by_cases hp : p t
      · exact .inl ⟨t, ⟨us, t.position⟩, by simp [accept, hrest, hp], hc.next hrest⟩
      · exact .inr (by simp [accept, hrest, hp])
  constructor
  · intro c a c'' hc hok
    rcases hnext hc with ⟨t, c', ht, hc'⟩ | hnot
    · rw [(bind_of_ok f ht).2] at hok
      exact (hsome t).whole hc' hok
    · rw [(bind_of_ok f hnot).2] at hok
      exact hnone.whole hc hok
  · intro c e hc herror
    rcases hnext hc with ⟨t, c', ht, hc'⟩ | hnot
    · rw [(bind_of_ok f ht).2] at herror
      exact (hsome t).part hc' herror
    · rw [(bind_of_ok f hnot).2] at herror
      exact hnone.part hc herror

/-- A choice that depends on the next token, which is read in the one case. -/
theorem ite_found {r s : Reader α} {p : Token → Bool} (hr : Places late ts true r b')
    (hs : Places late ts b s b') :
  Places late ts b (do if ← found p then r else s) b'
  := by
  unfold found
  rw [bind_assoc]
  apply accept_bind
  · intro t
    exact (pure true).bind fun
      | true => hr
      | false => hs.behind
  · exact hs

/-- An error about the next token points at it. -/
theorem expect_bind {p : Token → Bool} {options : List String} {f : Token → Reader α}
    (hf : ∀ t ∈ ts, Places late ts true (f t) b') :
  Places late ts b (Reader.expect p options >>= f) b'
  := by
  have hnext : ∀ {c}, c.Among ts b → (∃ e : SyntaxError,
      (Reader.expect p options c).2 = .error e ∧ e.IsPlaced late ts) ∨
        ∃ t c', (Reader.expect p options c).2 = .ok (t, c') ∧ t ∈ ts ∧ c'.Among ts true := by
    intro c hc
    cases hrest : c.rest with
    | nil => exact .inl ⟨⟨c.last, .expected none options⟩, by simp [expect, hrest], .inl trivial⟩
    | cons t us =>
      have ht := hc.mem hrest
      by_cases hp : p t
      · exact .inr ⟨t, ⟨us, t.position⟩, by simp [expect, hrest, hp], ht, hc.next hrest⟩
      · exact .inl ⟨⟨t.position, .expected (some t.text) options⟩, by simp [expect, hrest, hp],
          .inl ⟨t, ht, rfl, rfl⟩⟩
  constructor
  · intro c a c'' hc hok
    rcases hnext hc with ⟨e, herror, -⟩ | ⟨t, c', ht, hmem, hc'⟩
    · rw [(bind_of_error f herror).2] at hok
      contradiction
    · rw [(bind_of_ok f ht).2] at hok
      exact (hf t hmem).whole hc' hok
  · intro c e hc herror
    rcases hnext hc with ⟨e', herror', he⟩ | ⟨t, c', ht, hmem, hc'⟩
    · rw [(bind_of_error f herror').2] at herror
      cases herror
      exact he
    · rw [(bind_of_ok f ht).2] at herror
      exact (hf t hmem).part hc' herror

/-- An error about the token after the one that has just been read points at the latter. -/
theorem expectAfter_bind {p : Token → Bool} {options : List String} (hlate : options ∈ late)
    {f : Token → Reader α} (hf : ∀ t, Places late ts true (f t) b') :
  Places late ts true (Reader.expectAfter p options >>= f) b'
  := by
  have hexpect : Places late ts true (Reader.expectAfter p options) true := by
    constructor
    · intro c a c' hc hok
      cases hrest : c.rest with
      | nil => simp [expectAfter, hrest] at hok
      | cons t us =>
        by_cases hp : p t
        · simp only [expectAfter, hrest, hp, if_true] at hok
          cases hok
          exact hc.next hrest
        · simp [expectAfter, hrest, hp] at hok
    · intro c e hc herror
      cases hrest : c.rest with
      | nil =>
        simp only [expectAfter, hrest] at herror
        cases herror
        exact .inl trivial
      | cons t us =>
        by_cases hp : p t
        · simp [expectAfter, hrest, hp] at herror
        · simp only [expectAfter, hrest, hp] at herror
          cases herror
          obtain ⟨before, s, hts, hlast⟩ := hc.last rfl
          rw [hrest] at hts
          exact .inr ⟨before, s, t, us, options, hts, hlate, by rw [hlast]⟩
  exact hexpect.bind hf

theorem expect (p : Token → Bool) (options : List String) :
  Places late ts b (Reader.expect p options) true
  := by
  have hbind : Places late ts b (Reader.expect p options >>= Pure.pure) true :=
    expect_bind fun t _ => pure t
  rwa [bind_pure_self] at hbind

theorem opening :
  Places late ts b Reader.opening true
  := expect_bind fun _ _ => pure ()

theorem closing :
  Places late ts b Reader.closing true
  := expect_bind fun _ _ => pure ()

/-- A reader that always goes past some tokens. -/
theorem of_passes {r : Reader α}
    (h : ∀ c, ∃ a c' us, (r c).2 = .ok (a, c') ∧ c.Passes us c') :
  Places late ts b r b
  := by
  constructor
  · intro c a c' hc hok
    obtain ⟨a', c'', us, hok', hpasses⟩ := h c
    rw [hok] at hok'
    cases hok'
    exact hc.of_passes hpasses
  · intro c e _ herror
    obtain ⟨a', c'', us, hok', -⟩ := h c
    rw [herror] at hok'
    contradiction

/-- Tokens of a kind are read, or none is. -/
theorem run_bind {kind : TokenKind} {f : List Token → Reader α}
    (hnil : Places late ts b (f []) b')
    (hcons : ∀ t us, Places late ts true (f (t :: us)) b') :
  Places late ts b (run kind >>= f) b'
  := by
  have hrun : ∀ c : Cursor, ∃ us c', (run kind c).2 = .ok (us, c') ∧ c.Passes us c' := by
    intro c
    exact ⟨_, _, rfl, List.takeWhile_append_dropWhile.symm, rfl⟩
  constructor
  · intro c a c'' hc hok
    obtain ⟨us, c', hus, hpasses⟩ := hrun c
    rw [(bind_of_ok f hus).2] at hok
    cases us with
    | nil => exact hnil.whole (hc.of_passes hpasses) hok
    | cons t us =>
      exact (hcons t us).whole (hc.of_passes_ne_nil hpasses (List.cons_ne_nil t us)) hok
  · intro c e hc herror
    obtain ⟨us, c', hus, hpasses⟩ := hrun c
    rw [(bind_of_ok f hus).2] at herror
    cases us with
    | nil => exact hnil.part (hc.of_passes hpasses) herror
    | cons t us =>
      exact (hcons t us).part (hc.of_passes_ne_nil hpasses (List.cons_ne_nil t us)) herror

theorem acceptEmptyList :
  Places late ts b Reader.acceptEmptyList b
  := by
  apply of_passes
  rintro ⟨rest, last⟩
  match rest with
  | [] => exact ⟨_, _, _, rfl, .refl _⟩
  | [t] => exact ⟨_, _, _, rfl, .refl _⟩
  | s :: t :: us =>
    by_cases h : s.kind = .opening && t.kind = .closing
    · exact ⟨true, ⟨us, t.position⟩, [s, t], by simp [Reader.acceptEmptyList, h], rfl, rfl⟩
    · exact ⟨false, ⟨s :: t :: us, last⟩, [], by simp [Reader.acceptEmptyList, h], rfl, rfl⟩

/-- A word that is not covered is that of the next token. -/
theorem refuse (words : List String) :
  Places late ts b (Reader.refuse words) b
  := by
  constructor
  · intro c a c' hc hok
    cases hrest : c.rest with
    | nil =>
      simp only [Reader.refuse, hrest] at hok
      cases hok
      exact hc
    | cons t us =>
      cases hfind : words.find? t.isName with
      | none =>
        simp only [Reader.refuse, hrest, hfind] at hok
        cases hok
        exact hc
      | some word => simp [Reader.refuse, hrest, hfind] at hok
  · intro c e hc herror
    cases hrest : c.rest with
    | nil => simp [Reader.refuse, hrest] at herror
    | cons t us =>
      cases hfind : words.find? t.isName with
      | none => simp [Reader.refuse, hrest, hfind] at herror
      | some word =>
        simp only [Reader.refuse, hrest, hfind] at herror
        cases herror
        have hname := List.find?_some hfind
        rw [Token.isName, Bool.and_eq_true] at hname
        exact .inl ⟨t, hc.mem hrest, hname.2, rfl⟩

theorem noMore :
  Places late ts b Reader.noMore b
  := by
  constructor
  · intro c a c' hc hok
    cases hrest : c.rest with
    | nil =>
      simp only [Reader.noMore, hrest] at hok
      cases hok
      exact hc
    | cons t us => simp [Reader.noMore, hrest] at hok
  · intro c e hc herror
    cases hrest : c.rest with
    | nil => simp [Reader.noMore, hrest] at herror
    | cons t us =>
      simp only [Reader.noMore, hrest] at herror
      cases herror
      exact .inl ⟨t, hc.mem hrest, rfl, rfl⟩

/-! ### Repetition and nesting -/

theorem untilClosingWithin {step : σ → Reader σ} (h : ∀ s, Places late ts b (step s) true)
    (n : Nat) (s : σ) :
  Places late ts b (Reader.untilClosingWithin step n s) true
  := by
  induction n generalizing b s with
  | zero => exact h s
  | succ n ih =>
    apply ite_found
    · exact pure s
    · exact (h s).bind fun s' => ih (fun s => (h s).behind) s'

theorem untilClosing {step : σ → Reader σ} (h : ∀ s, Places late ts b (step s) true) (s : σ) :
  Places late ts b (Reader.untilClosing step s) true
  where
  whole hc hok := (untilClosingWithin h _ s).whole hc hok
  part hc herror := (untilClosingWithin h _ s).part hc herror

theorem repeated {r : Reader Unit} (h : Places late ts b r true) :
  Places late ts b (Reader.repeated r) true
  := untilClosing (fun _ => h) ()

theorem nestedWithin {contents : Reader Unit → Reader Unit}
    (h : ∀ r, Places late ts true r true → Places late ts true (contents r) true) (n : Nat) :
  Places late ts b (Reader.nestedWithin contents n) true
  := by
  induction n generalizing b with
  | zero =>
    constructor
    · intro c a c' _ hok
      contradiction
    · intro c e _ herror
      cases herror
      exact .inl trivial
  | succ n ih => exact opening.bind fun _ => h _ ih

theorem nested {contents : Reader Unit → Reader Unit}
    (h : ∀ r, Places late ts true r true → Places late ts true (contents r) true) :
  Places late ts b (Reader.nested contents) true
  where
  whole hc hok := (nestedWithin h _).whole hc hok
  part hc herror := (nestedWithin h _).part hc herror

end Places

end Reader

end PlanLang
