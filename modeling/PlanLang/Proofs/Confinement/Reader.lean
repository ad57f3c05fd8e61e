import Mathlib.Data.List.TakeWhile
import PlanLang.Proofs.Reader.Emission

/-!
# Readers within parentheses

The tokens up to the parenthesis that closes a list are all that a reader of the list depends on.
Whatever comes after them, it reads the same; it does not get past them, and where it stops it
points at one of them.  A reader is compared with one that is given nothing after these tokens and
may be bounded differently, so that the bounds of repetition and nesting do not matter either.
-/

namespace PlanLang

/-! ### Closing parentheses -/

/-- The number of open parentheses after a token of a kind, when `n + 1` are open before it. -/
def TokenKind.depthAfter : TokenKind → Nat → Nat
  | opening, n => n + 2
  | closing, n => n
  | _, n => n + 1

/-- The tokens close `n` open parentheses, the last of these with the last token. -/
def closes : Nat → List Token → Bool
  | 0, ts => ts.isEmpty
  | _ + 1, [] => false
  | n + 1, t :: ts => closes (t.kind.depthAfter n) ts

/-- As long as parentheses are open, a token closes one. -/
theorem exists_closing_of_closes {n : Nat} {ts : List Token} (h : closes (n + 1) ts) :
  ∃ t ∈ ts, t.kind = .closing
  := by
  induction ts generalizing n with
  | nil => contradiction
  | cons t ts ih =>
    by_cases ht : t.kind = .closing
    · exact ⟨t, List.mem_cons_self, ht⟩
    · have hrest : ∃ m, closes (m + 1) ts := by
        rw [closes] at h
        cases hkind : t.kind <;> rw [hkind] at h <;> first | exact ⟨_, h⟩ | contradiction
      obtain ⟨m, hm⟩ := hrest
      obtain ⟨s, hs, hclosing⟩ := ih hm
      exact ⟨s, List.mem_cons_of_mem _ hs, hclosing⟩

/-! ### Cursors among tokens -/

namespace Cursor

/-- The cursor when more tokens follow. -/
def append (c : Cursor) (rest : List Token) : Cursor :=
  ⟨c.rest ++ rest, c.last⟩

theorem append_nil (c : Cursor) :
  c.append [] = c
  := by
  rw [append, List.append_nil]

/-- The last of the tokens `ts` remain, at most `N` of them, and they close `n` parentheses. -/
structure Inside (ts : List Token) (N n : Nat) (c : Cursor) : Prop where
  suffix : c.rest <:+ ts
  closes : PlanLang.closes n c.rest
  length_le : c.rest.length ≤ N

/-- One of the tokens `ts` has just been read, and less than `N` of them remain, which close `n`
parentheses. -/
structure Past (ts : List Token) (N n : Nat) (c : Cursor) : Prop where
  read : ∃ before t, ts = before ++ t :: c.rest ∧ c.last = t.position
  closes : PlanLang.closes n c.rest
  length_lt : c.rest.length < N

variable {ts : List Token} {N n : Nat} {c : Cursor}

theorem Past.suffix (h : c.Past ts N n) :
  c.rest <:+ ts
  := by
  obtain ⟨before, t, rfl, -⟩ := h.read
  exact ⟨before ++ [t], by simp⟩

theorem Past.inside (h : c.Past ts N n) :
  c.Inside ts N n
  := ⟨h.suffix, h.closes, h.length_lt.le⟩

theorem Past.inside_of_succ (h : c.Past ts (N + 1) n) :
  c.Inside ts N n
  := ⟨h.suffix, h.closes, Nat.le_of_lt_succ h.length_lt⟩

theorem Past.mono (h : c.Past ts N n) {M : Nat} (hM : N ≤ M) :
  c.Past ts M n
  := ⟨h.read, h.closes, h.length_lt.trans_le hM⟩

theorem Past.last_mem (h : c.Past ts N n) :
  c.last ∈ ts.map Token.position
  := by
  obtain ⟨before, t, rfl, hlast⟩ := h.read
  rw [hlast]
  simp

/-- As long as parentheses are open, there is a token to read. -/
theorem Inside.exists_cons (h : c.Inside ts N (n + 1)) :
  ∃ t us, c.rest = t :: us ∧ t ∈ ts ∧ (⟨us, t.position⟩ : Cursor).Past ts N (t.kind.depthAfter n)
  := by
  obtain ⟨hsuffix, hcloses, hlength⟩ := h
  cases hrest : c.rest with
  | nil =>
    rw [hrest] at hcloses
    contradiction
  | cons t us =>
    rw [hrest] at hsuffix hcloses hlength
    refine ⟨t, us, rfl, hsuffix.subset List.mem_cons_self, ?_, hcloses, hlength⟩
    obtain ⟨before, rfl⟩ := hsuffix
    exact ⟨before, t, rfl, rfl⟩

end Cursor

/-! ### What is reported about tokens -/

/-- The error is about one of the tokens, and not about the end of the source. -/
def SyntaxError.IsAt (ts : List Token) (e : SyntaxError) : Prop :=
  (∀ options, e.kind ≠ .expected none options) ∧ e.position ∈ ts.map Token.position

/-- The step is about the tokens: what is needed is noted at the position of one of them, and a
name that is reported is the name of one of them. -/
def Step.IsAt (ts : List Token) : Position × Step → Prop
  | (p, .need _ _) => p ∈ ts.map Token.position
  | (_, .event (.name _ name)) => ∃ t ∈ ts, (t.kind = .name ∨ t.kind = .var) ∧ name = t.name
  | (_, .event _) => True

namespace Reader

variable {α β σ : Type}

/-- What a reader comes to when more tokens follow those that it depends on. -/
def extend (rest : List Token) (p : List (Position × Step) × Except SyntaxError (α × Cursor)) :
    List (Position × Step) × Except SyntaxError (α × Cursor) :=
  (p.1, p.2.map fun (a, c) => (a, c.append rest))

/-- From the cursor `c` on, the reader `r` does what `r'` does, whatever follows the tokens that
remain: it reports steps about the tokens `ts`, and ends as `Q` says or stops with an error about
one of the tokens `ts`. -/
structure ConfinedAt (ts : List Token) (c : Cursor) (r r' : Reader α) (Q : α → Cursor → Prop) :
    Prop where
  append : ∀ rest, r (c.append rest) = extend rest (r' c)
  steps : ∀ s ∈ (r' c).1, Step.IsAt ts s
  whole : ∀ {a c'}, (r' c).2 = .ok (a, c') → Q a c'
  part : ∀ {e}, (r' c).2 = .error e → e.IsAt ts

namespace ConfinedAt

variable {ts : List Token} {N m : Nat} {c : Cursor}

/-! ### Sequences of readers -/

theorem mono {r r' : Reader α} {Q Q' : α → Cursor → Prop} (h : ConfinedAt ts c r r' Q)
    (hQ : ∀ a c', Q a c' → Q' a c') :
  ConfinedAt ts c r r' Q'
  where
  append := h.append
  steps := h.steps
  whole hok := hQ _ _ (h.whole hok)
  part := h.part

theorem bind {r r' : Reader α} {f f' : α → Reader β} {Q : α → Cursor → Prop}
    {Q' : β → Cursor → Prop} (hr : ConfinedAt ts c r r' Q)
    (hf : ∀ a c', Q a c' → ConfinedAt ts c' (f a) (f' a) Q') :
  ConfinedAt ts c (r >>= f) (r' >>= f') Q'
  := by
  obtain ⟨happend, hsteps, hwhole, hpart⟩ := hr
  rcases hr' : r' c with ⟨ps, e | ⟨a, c'⟩⟩
  · have hbind : (r' >>= f') c = (ps, .error e) := by rw [bind_apply, hr']
    rw [hr'] at hsteps hpart
    constructor
    · intro rest
      rw [bind_apply, happend, hr', hbind]
      rfl
    · rwa [hbind]
    · intro b c'' hok
      rw [hbind] at hok
      contradiction
    · intro e' herror
      rw [hbind] at herror
      cases herror
      apply hpart rfl
  · have hbind : (r' >>= f') c = (ps ++ (f' a c').1, (f' a c').2) := by rw [bind_apply, hr']
    rw [hr'] at hsteps hwhole
    obtain ⟨happend', hsteps', hwhole', hpart'⟩ := hf a c' (hwhole rfl)
    constructor
    · intro rest
      have hfirst : extend rest (r' c) = (ps, .ok (a, c'.append rest)) := by rw [hr']; rfl
      rw [bind_apply, happend, hfirst, hbind]
      simp only [happend']
      rfl
    · rw [hbind]
      intro s hs
      rcases List.mem_append.mp hs with hs | hs
      · apply hsteps s hs
      · apply hsteps' s hs
    · intro b c'' hok
      rw [hbind] at hok
      apply hwhole' hok
    · intro e herror
      rw [hbind] at herror
      apply hpart' herror

theorem pure {a : α} {Q : α → Cursor → Prop} (h : Q a c) :
  ConfinedAt ts c (Pure.pure a) (Pure.pure a) Q
  where
  append _ := rfl
  steps := nofun
  whole hok := by
    cases hok
    exact h
  part herror := nomatch herror

/-! ### Reporting -/

theorem report {s : Step} {Q : Unit → Cursor → Prop} (hs : Step.IsAt ts (c.last, s)) (h : Q () c) :
  ConfinedAt ts c (Reader.report s) (Reader.report s) Q
  where
  append _ := rfl
  steps := by
    intro s' hs'
    obtain rfl := List.mem_singleton.mp hs'
    exact hs
  whole hok := by
    cases hok
    exact h
  part herror := nomatch herror

theorem report_bind {s : Step} {r r' : Reader α} {Q : α → Cursor → Prop}
    (hs : Step.IsAt ts (c.last, s)) (h : ConfinedAt ts c r r' Q) :
  ConfinedAt ts c (do Reader.report s; r) (do Reader.report s; r') Q
  := by
  apply (report (Q := fun _ c' => c' = c) hs rfl).bind
  rintro _ _ rfl
  exact h

theorem within {k : Construct} {r r' : Reader Unit} {Q : Unit → Cursor → Prop}
    (h : ConfinedAt ts c r r' Q) :
  ConfinedAt ts c (Reader.within k r) (Reader.within k r') Q
  := by
  apply report_bind (s := .event (.enter k)) trivial
  apply h.bind
  intro _ c' hc'
  apply report (s := .event (.leave k)) trivial hc'

theorem named {r : Role} {t : Token} {Q : Unit → Cursor → Prop} (ht : t ∈ ts)
    (hkind : t.kind = .name ∨ t.kind = .var) (h : Q () c) :
  ConfinedAt ts c (Reader.named r t) (Reader.named r t) Q
  := report ⟨t, ht, hkind, rfl⟩ h

theorem named_bind {r : Role} {t : Token} {s s' : Reader α} {Q : α → Cursor → Prop} (ht : t ∈ ts)
    (hkind : t.kind = .name ∨ t.kind = .var) (h : ConfinedAt ts c s s' Q) :
  ConfinedAt ts c (do Reader.named r t; s) (do Reader.named r t; s') Q
  := report_bind ⟨t, ht, hkind, rfl⟩ h

theorem allNamed {r : Role} {us : List Token} {Q : Unit → Cursor → Prop}
    (hus : ∀ t ∈ us, t ∈ ts ∧ (t.kind = .name ∨ t.kind = .var)) (h : Q () c) :
  ConfinedAt ts c (Reader.allNamed r us) (Reader.allNamed r us) Q
  := by
  induction us with
  | nil => apply pure h
  | cons t us ih =>
    rw [List.forall_mem_cons] at hus
    obtain ⟨ht, hkind⟩ := hus.1
    exact named_bind ht hkind (ih hus.2)

/-! ### Reading a token -/

/-- A reader that ends with the same value and the same cursor, whatever follows. -/
theorem of_ok {r : Reader α} {a : α} {c' : Cursor}
    (h : ∀ rest, r (c.append rest) = ([], .ok (a, c'.append rest))) :
  ConfinedAt ts c r r fun b c'' => b = a ∧ c'' = c'
  := by
  have hnil := h []
  rw [Cursor.append_nil, Cursor.append_nil] at hnil
  constructor
  · intro rest
    rw [h, hnil]
    rfl
  · rw [hnil]
    exact nofun
  · intro b c'' hok
    rw [hnil] at hok
    cases hok
    exact ⟨rfl, rfl⟩
  · intro e herror
    rw [hnil] at herror
    contradiction

/-- A reader that stops with the same error, whatever follows. -/
theorem of_error {r : Reader α} {e : SyntaxError} {Q : α → Cursor → Prop}
    (h : ∀ rest, r (c.append rest) = ([], .error e)) (he : e.IsAt ts) :
  ConfinedAt ts c r r Q
  := by
  have hnil := h []
  rw [Cursor.append_nil] at hnil
  constructor
  · intro rest
    rw [h, hnil]
    rfl
  · rw [hnil]
    exact nofun
  · intro a c' hok
    rw [hnil] at hok
    contradiction
  · intro e' herror
    rw [hnil] at herror
    cases herror
    exact he

/-- A token is read if it satisfies `p`, or none is. -/
theorem accept_bind {p : Token → Bool} {kind : TokenKind} (hp : ∀ t, p t → t.kind = kind)
    {f f' : Option Token → Reader α} {Q : α → Cursor → Prop} (hc : c.Inside ts N (m + 1))
    (hsome : ∀ t c', t ∈ ts → p t → c'.Past ts N (kind.depthAfter m) →
      ConfinedAt ts c' (f (some t)) (f' (some t)) Q)
    (hnone : ConfinedAt ts c (f none) (f' none) Q) :
  ConfinedAt ts c (accept p >>= f) (accept p >>= f') Q
  := by
  obtain ⟨t, us, hrest, ht, hpast⟩ := hc.exists_cons
  by_cases hpt : p t
  · have haccept : ∀ rest, accept p (c.append rest)
        = ([], .ok (some t, (⟨us, t.position⟩ : Cursor).append rest)) := by
      simp [accept, Cursor.append, hrest, hpt]
    apply (of_ok haccept).bind
    rintro _ _ ⟨rfl, rfl⟩
    rw [hp t hpt] at hpast
    apply hsome t _ ht hpt hpast
  · have haccept : ∀ rest, accept p (c.append rest) = ([], .ok (none, c.append rest)) := by
      simp [accept, Cursor.append, hrest, hpt]
    apply (of_ok haccept).bind
    rintro _ _ ⟨rfl, rfl⟩
    exact hnone

/-- A choice that depends on whether the next token satisfies `p`. -/
theorem ite_found {p : Token → Bool} {kind : TokenKind} (hp : ∀ t, p t → t.kind = kind)
    {r r' s s' : Reader α} {Q : α → Cursor → Prop} (hc : c.Inside ts N (m + 1))
    (hr : ∀ c', c'.Past ts N (kind.depthAfter m) → ConfinedAt ts c' r r' Q)
    (hs : ConfinedAt ts c s s' Q) :
  ConfinedAt ts c (do if ← found p then r else s) (do if ← found p then r' else s') Q
  := by
  unfold found
  rw [bind_assoc, bind_assoc]
  apply accept_bind hp hc
  · intro t c' _ _ hpast
    apply (pure (Q := fun b c'' => b = true ∧ c'' = c') ⟨rfl, rfl⟩).bind
    rintro _ _ ⟨rfl, rfl⟩
    apply hr _ hpast
  · apply (pure (Q := fun b c'' => b = false ∧ c'' = c) ⟨rfl, rfl⟩).bind
    rintro _ _ ⟨rfl, rfl⟩
    exact hs

/-- A token that satisfies `p` is read. -/
theorem expect_bind {p : Token → Bool} {kind : TokenKind} (hp : ∀ t, p t → t.kind = kind)
    {options : List String} {f f' : Token → Reader α} {Q : α → Cursor → Prop}
    (hc : c.Inside ts N (m + 1))
    (hf : ∀ t c', t ∈ ts → p t → c'.Past ts N (kind.depthAfter m) →
      ConfinedAt ts c' (f t) (f' t) Q) :
  ConfinedAt ts c (expect p options >>= f) (expect p options >>= f') Q
  := by
  obtain ⟨t, us, hrest, ht, hpast⟩ := hc.exists_cons
  by_cases hpt : p t
  · have hexpect : ∀ rest, expect p options (c.append rest)
        = ([], .ok (t, (⟨us, t.position⟩ : Cursor).append rest)) := by
      simp [expect, Cursor.append, hrest, hpt]
    apply (of_ok hexpect).bind
    rintro _ _ ⟨rfl, rfl⟩
    rw [hp _ hpt] at hpast
    apply hf _ _ ht hpt hpast
  · have hexpect : ∀ rest, expect p options (c.append rest)
        = ([], .error ⟨t.position, .expected (some t.text) options⟩) := by
      simp [expect, Cursor.append, hrest, hpt]
    apply (of_error (Q := fun _ _ => False) hexpect ⟨nofun, List.mem_map_of_mem ht⟩).bind
    exact nofun

/-- A token that satisfies `p` is read after another one, which an error points at. -/
theorem expectAfter_bind {p : Token → Bool} {kind : TokenKind} (hp : ∀ t, p t → t.kind = kind)
    {options : List String} {f f' : Token → Reader α} {Q : α → Cursor → Prop}
    (hc : c.Past ts N (m + 1))
    (hf : ∀ t c', c'.Past ts N (kind.depthAfter m) → ConfinedAt ts c' (f t) (f' t) Q) :
  ConfinedAt ts c (expectAfter p options >>= f) (expectAfter p options >>= f') Q
  := by
  obtain ⟨t, us, hrest, -, hpast⟩ := hc.inside.exists_cons
  by_cases hpt : p t
  · have hexpect : ∀ rest, expectAfter p options (c.append rest)
        = ([], .ok (t, (⟨us, t.position⟩ : Cursor).append rest)) := by
      simp [expectAfter, Cursor.append, hrest, hpt]
    apply (of_ok hexpect).bind
    rintro _ _ ⟨rfl, rfl⟩
    rw [hp _ hpt] at hpast
    apply hf _ _ hpast
  · have hexpect : ∀ rest, expectAfter p options (c.append rest)
        = ([], .error ⟨c.last, .expected (some t.text) options⟩) := by
      simp [expectAfter, Cursor.append, hrest, hpt]
    apply (of_error (Q := fun _ _ => False) hexpect ⟨nofun, hc.last_mem⟩).bind
    exact nofun

theorem opening_bind {f f' : Unit → Reader α} {Q : α → Cursor → Prop}
    (hc : c.Inside ts N (m + 1))
    (hf : ∀ c', c'.Past ts N (m + 2) → ConfinedAt ts c' (f ()) (f' ()) Q) :
  ConfinedAt ts c (opening >>= f) (opening >>= f') Q
  := by
  rw [opening, bind_assoc, bind_assoc]
  apply expect_bind (fun _ => of_decide_eq_true) hc
  intro _ c' _ _ hpast
  exact hf c' hpast

theorem closing (hc : c.Inside ts N (m + 1)) :
  ConfinedAt ts c Reader.closing Reader.closing fun _ => Cursor.Past ts N m
  := by
  apply expect_bind (fun _ => of_decide_eq_true) hc
  intro _ c' _ _ hpast
  exact pure (Q := fun _ => Cursor.Past ts N m) hpast

/-- Where a word that is not covered is next, the reader stops. -/
theorem refuse_bind {words : List String} {r r' : Reader α} {Q : α → Cursor → Prop}
    (hc : c.Inside ts N (m + 1)) (hr : ConfinedAt ts c r r' Q) :
  ConfinedAt ts c (do refuse words; r) (do refuse words; r') Q
  := by
  obtain ⟨t, us, hrest, ht, -⟩ := hc.exists_cons
  cases hfind : words.find? t.isName with
  | some word =>
    have hrefuse : ∀ rest, refuse words (c.append rest)
        = ([], .error ⟨t.position, .unsupported word⟩) := by
      simp [refuse, Cursor.append, hrest, hfind]
    apply (of_error (Q := fun _ _ => False) hrefuse ⟨nofun, List.mem_map_of_mem ht⟩).bind
    exact nofun
  | none =>
    have hrefuse : ∀ rest, refuse words (c.append rest) = ([], .ok ((), c.append rest)) := by
      simp [refuse, Cursor.append, hrest, hfind]
    apply (of_ok hrefuse).bind
    rintro _ _ ⟨-, rfl⟩
    exact hr

/-! ### Reading several tokens -/

/-- An empty list is read if it is next. -/
theorem acceptEmptyList_bind {f f' : Bool → Reader α} {Q : α → Cursor → Prop}
    (hc : c.Inside ts N (m + 1))
    (htrue : ∀ c', c'.Past ts N (m + 1) → ConfinedAt ts c' (f true) (f' true) Q)
    (hfalse : ConfinedAt ts c (f false) (f' false) Q) :
  ConfinedAt ts c (acceptEmptyList >>= f) (acceptEmptyList >>= f') Q
  := by
  obtain ⟨s, us, hrest, -, hpast⟩ := hc.exists_cons
  by_cases hs : s.kind = .opening
  · -- the parenthesis that is opened has to be closed, so another token follows
    rw [hs] at hpast
    obtain ⟨t, vs, hrest', -, hpast'⟩ := hpast.inside.exists_cons
    obtain rfl : us = t :: vs := hrest'
    by_cases ht : t.kind = .closing
    · have haccept : ∀ rest, acceptEmptyList (c.append rest)
          = ([], .ok (true, (⟨vs, t.position⟩ : Cursor).append rest)) := by
        simp [acceptEmptyList, Cursor.append, hrest, hs, ht]
      apply (of_ok haccept).bind
      rintro _ _ ⟨rfl, rfl⟩
      rw [ht] at hpast'
      apply htrue _ hpast'
    · have haccept : ∀ rest,
          acceptEmptyList (c.append rest) = ([], .ok (false, c.append rest)) := by
        simp [acceptEmptyList, Cursor.append, hrest, ht]
      apply (of_ok haccept).bind
      rintro _ _ ⟨rfl, rfl⟩
      exact hfalse
  · have haccept : ∀ rest, acceptEmptyList (c.append rest) = ([], .ok (false, c.append rest)) := by
      intro rest
      cases h : us ++ rest <;> simp [acceptEmptyList, Cursor.append, hrest, hs, h]
    apply (of_ok haccept).bind
    rintro _ _ ⟨rfl, rfl⟩
    exact hfalse

/-- Tokens of a kind that is not that of a parenthesis leave as many parentheses open. -/
theorem past_of_kind {kind : TokenKind} (hkind : kind.depthAfter m = m + 1) {us vs : List Token}
    (hus : ∀ t ∈ us, t.kind = kind) {c : Cursor} (hrest : c.rest = us ++ vs)
    (hc : c.Inside ts N (m + 1)) :
  us = [] ∨ (⟨vs, (us.getLast?.map Token.position).getD c.last⟩ : Cursor).Past ts N (m + 1)
  := by
  induction us generalizing c with
  | nil => exact .inl rfl
  | cons t us ih =>
    rw [List.forall_mem_cons] at hus
    obtain ⟨s, ws, hcons, -, hpast⟩ := hc.exists_cons
    obtain ⟨rfl, rfl⟩ : t = s ∧ us ++ vs = ws := by simpa [hrest] using hcons
    rw [hus.1, hkind] at hpast
    right
    rcases ih hus.2 rfl hpast.inside with rfl | hlast
    · exact hpast
    · cases us with
      | nil => exact hpast
      | cons u us =>
        rw [List.getLast?_cons_cons]
        obtain ⟨v, hv⟩ := Option.isSome_iff_exists.mp
          (List.getLast?_isSome.mpr (List.cons_ne_nil u us))
        rw [hv] at hlast ⊢
        exact hlast

/-- A token of another kind ends a run of tokens, so that what follows it is not looked at. -/
theorem run_append {kind : TokenKind} {c : Cursor} (h : ∃ t ∈ c.rest, t.kind ≠ kind)
    (rest : List Token) :
  run kind (c.append rest) = ([], .ok (c.rest.takeWhile (·.kind = kind),
    (⟨c.rest.dropWhile (·.kind = kind), ((c.rest.takeWhile (·.kind = kind)).getLast?.map
      Token.position).getD c.last⟩ : Cursor).append rest))
  := by
  have hdrop : c.rest.dropWhile (·.kind = kind) ≠ [] := by
    obtain ⟨t, ht, hkind⟩ := h
    intro hnil
    rw [List.dropWhile_eq_nil_iff] at hnil
    exact hkind (of_decide_eq_true (hnil t ht))
  have hlength : (c.rest.takeWhile (·.kind = kind)).length ≠ c.rest.length := by
    intro heq
    have hsplit := List.takeWhile_append_dropWhile (p := (·.kind = kind)) (l := c.rest)
    rw [(List.takeWhile_prefix _).eq_of_length heq, List.append_right_eq_self] at hsplit
    exact hdrop hsplit
  simp [run, Cursor.append, List.takeWhile_append, List.dropWhile_append, hlength, hdrop]

/-- The tokens of a kind that come next are read, if there are any. -/
theorem run_bind {kind : TokenKind} (hkind : kind = .name ∨ kind = .var)
    {f f' : List Token → Reader α} {Q : α → Cursor → Prop} (hc : c.Inside ts N (m + 1))
    (hnil : ConfinedAt ts c (f []) (f' []) Q)
    (hf : ∀ us c', (∀ t ∈ us, t ∈ ts ∧ (t.kind = .name ∨ t.kind = .var)) → us ≠ [] →
      c'.Past ts N (m + 1) → ConfinedAt ts c' (f us) (f' us) Q) :
  ConfinedAt ts c (run kind >>= f) (run kind >>= f') Q
  := by
  have hdepth : kind.depthAfter m = m + 1 := by
    obtain rfl | rfl := hkind <;> rfl
  have hother : ∃ t ∈ c.rest, t.kind ≠ kind := by
    obtain ⟨q, hq, hclosing⟩ := exists_closing_of_closes hc.closes
    refine ⟨q, hq, ?_⟩
    obtain rfl | rfl := hkind <;> simp [hclosing]
  have hsplit : c.rest.takeWhile (·.kind = kind) ++ c.rest.dropWhile (·.kind = kind) = c.rest :=
    List.takeWhile_append_dropWhile
  have hus : ∀ t ∈ c.rest.takeWhile (·.kind = kind), t.kind = kind := by
    intro t ht
    simpa using List.mem_takeWhile_imp ht
  have hmem : ∀ t ∈ c.rest.takeWhile (·.kind = kind),
      t ∈ ts ∧ (t.kind = .name ∨ t.kind = .var) := by
    intro t ht
    rw [hus t ht]
    exact ⟨hc.suffix.subset (List.takeWhile_subset _ ht), hkind⟩
  apply (of_ok (run_append hother)).bind
  rintro _ _ ⟨rfl, rfl⟩
  rcases past_of_kind hdepth hus hsplit.symm hc with h | h
  · rw [h, List.nil_append] at hsplit
    rw [h, hsplit]
    exact hnil
  · by_cases hempty : c.rest.takeWhile (·.kind = kind) = []
    · rw [hempty, List.nil_append] at hsplit
      rw [hempty, hsplit]
      exact hnil
    · apply hf _ _ hmem hempty h

end ConfinedAt

/-! ### Repetition and nesting -/

/-- While a parenthesis is open, and at most `M` of the tokens `ts` remain, the reader `r` does what
`r'` does, whatever follows.  It leaves `d` parentheses open of the innermost one that is open and
those that it opens. -/
def Confined (ts : List Token) (M d : Nat) (r r' : Reader α) : Prop :=
  ∀ N m c, N ≤ M → c.Inside ts N (m + 1) →
    ConfinedAt ts c r r' fun _ => Cursor.Past ts N (m + d)

variable {ts : List Token} {M : Nat}

/-- A step is repeated up to the parenthesis that closes the list, however the number of
repetitions is bounded. -/
theorem Confined.untilClosingWithin {step step' : σ → Reader σ}
    (h : ∀ s, Confined ts M 1 (step s) (step' s)) (N : Nat) (hN : N ≤ M) :
  ∀ n n' m s c, N ≤ n → N ≤ n' → c.Inside ts N (m + 1) →
    ConfinedAt ts c (untilClosingWithin step n s) (untilClosingWithin step' n' s)
      fun _ => Cursor.Past ts N m
  := by
  induction N with
  | zero =>
    intro n n' m s c _ _ hc
    obtain ⟨t, us, -, -, hpast⟩ := hc.exists_cons
    exact absurd hpast.length_lt (Nat.not_lt_zero _)
  | succ N ih =>
    intro n n' m s c hn hn' hc
    cases n with
    | zero => contradiction
    | succ n =>
      cases n' with
      | zero => contradiction
      | succ n' =>
        apply ConfinedAt.ite_found (fun _ => of_decide_eq_true) hc
        · intro c' hpast
          exact ConfinedAt.pure (Q := fun _ => Cursor.Past ts (N + 1) m) hpast
        · apply (h s _ m c hN hc).bind
          intro s' c' hpast
          apply (ih (Nat.le_of_succ_le hN) n n' m s' c' (Nat.le_of_succ_le_succ hn)
            (Nat.le_of_succ_le_succ hn') hpast.inside_of_succ).mono
          intro _ c'' hpast'
          exact hpast'.mono (Nat.le_succ N)

/-- The bounds of a repetition are the numbers of tokens that remain. -/
theorem Confined.untilClosing {step step' : σ → Reader σ}
    (h : ∀ s, Confined ts M 1 (step s) (step' s)) (s : σ) :
  Confined ts M 0 (untilClosing step s) (untilClosing step' s)
  := by
  intro N m c hN hc
  have hlength : c.Inside ts c.rest.length (m + 1) := ⟨hc.suffix, hc.closes, le_rfl⟩
  have hwithin := fun n hn => Confined.untilClosingWithin h _ (hc.length_le.trans hN) n
    c.rest.length m s c hn le_rfl hlength
  constructor
  · intro rest
    apply (hwithin (c.append rest).rest.length _).append
    rw [Cursor.append, List.length_append]
    apply Nat.le_add_right
  · apply (hwithin c.rest.length le_rfl).steps
  · intro a c' hok
    exact ((hwithin c.rest.length le_rfl).whole hok).mono hc.length_le
  · intro e herror
    exact (hwithin c.rest.length le_rfl).part herror

theorem Confined.repeated {r r' : Reader Unit} (h : Confined ts M 1 r r') :
  Confined ts M 0 (repeated r) (repeated r')
  := Confined.untilClosing (fun _ => h) ()

/-- Lists are read down to any depth that leaves room for the tokens. -/
theorem Confined.nestedWithin {contents : Reader Unit → Reader Unit}
    (h : ∀ M r r', Confined ts M 1 r r' → Confined ts M 0 (contents r) (contents r')) :
  ∀ M n n', M ≤ n → M ≤ n' →
    Confined ts M 1 (nestedWithin contents n) (nestedWithin contents n')
  := by
  intro M
  induction M with
  | zero =>
    intro n n' _ _ N m c hN hc
    obtain ⟨t, us, -, -, hpast⟩ := hc.exists_cons
    exact absurd (hpast.length_lt.trans_le hN) (Nat.not_lt_zero _)
  | succ M ih =>
    intro n n' hn hn' N m c hN hc
    cases n with
    | zero => contradiction
    | succ n =>
      cases n' with
      | zero => contradiction
      | succ n' =>
        apply ConfinedAt.opening_bind hc
        intro c' hpast
        have hcontents := h M _ _ (ih n n' (Nat.le_of_succ_le_succ hn) (Nat.le_of_succ_le_succ hn'))
        cases N with
        | zero => exact absurd hpast.length_lt (Nat.not_lt_zero _)
        | succ N =>
          apply (hcontents N (m + 1) c' (Nat.le_of_succ_le_succ hN) hpast.inside_of_succ).mono
          intro _ c'' hpast'
          exact hpast'.mono (Nat.le_succ N)

/-- The bounds of a nesting are the numbers of tokens that remain. -/
theorem Confined.nested {contents : Reader Unit → Reader Unit}
    (h : ∀ M r r', Confined ts M 1 r r' → Confined ts M 0 (contents r) (contents r')) (M : Nat) :
  Confined ts M 1 (nested contents) (nested contents)
  := by
  intro N m c hN hc
  have hlength : c.Inside ts c.rest.length (m + 1) := ⟨hc.suffix, hc.closes, le_rfl⟩
  have hwithin := fun n hn => Confined.nestedWithin h c.rest.length n c.rest.length hn le_rfl
    _ m c le_rfl hlength
  constructor
  · intro rest
    apply (hwithin (c.append rest).rest.length _).append
    rw [Cursor.append, List.length_append]
    apply Nat.le_add_right
  · apply (hwithin c.rest.length le_rfl).steps
  · intro a c' hok
    exact ((hwithin c.rest.length le_rfl).whole hok).mono hc.length_le
  · intro e herror
    exact (hwithin c.rest.length le_rfl).part herror

end Reader

end PlanLang
