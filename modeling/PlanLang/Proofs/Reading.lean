import PlanLang.Proofs.Reader.TypedList
import PlanLang.Proofs.Token.Lexeme
import PlanLang.Reader.Draft

/-!
# What readers read

A reader that is in front of the lexemes it is made for reads them all and no more, and reports
their events.  As with languages of reports, what a reader reads follows from what the readers
read that it is made of.
-/

namespace PlanLang

/-- The lexemes of the tokens that remain. -/
def Cursor.lexemes (c : Cursor) : List Lexeme :=
  c.rest.map Token.lexeme

namespace Reader

variable {α β σ : Type} {gate : Gate}

/-- In front of the lexemes `ls`, where `rest` follows, the reader reads `ls` and reports the
events `es`.  It needs only what the gate allows, and `V` holds of its value. -/
def ReadsTo (r : Reader α) (gate : Gate) (ls rest : List Lexeme) (es : List Event)
    (V : α → Prop) : Prop :=
  ∀ c : Cursor, c.lexemes = ls ++ rest → ∃ a c', (r c).2 = .ok (a, c') ∧ V a ∧
    c'.lexemes = rest ∧ Step.events (r.steps c) = es ∧
    ∀ req what, .need req what ∈ r.steps c → gate.allows req

/-- A reader without a value reads lexemes and reports events. -/
abbrev Reads (r : Reader Unit) (gate : Gate) (ls rest : List Lexeme) (es : List Event) : Prop :=
  r.ReadsTo gate ls rest es fun _ => True

theorem ReadsTo.imp {r : Reader α} {ls rest : List Lexeme} {es : List Event} {V W : α → Prop}
    (h : r.ReadsTo gate ls rest es V) (hVW : ∀ a, V a → W a) :
  r.ReadsTo gate ls rest es W
  := by
  intro c hc
  obtain ⟨a, c', hok, ha, hrest⟩ := h c hc
  exact ⟨a, c', hok, hVW a ha, hrest⟩

/-! ### Sequences of readers -/

theorem ReadsTo.bind {r : Reader α} {f : α → Reader β} {ls ms rest : List Lexeme}
    {es es' : List Event} {V : α → Prop} {W : β → Prop} (hr : r.ReadsTo gate ls (ms ++ rest) es V)
    (hf : ∀ a, V a → (f a).ReadsTo gate ms rest es' W) :
  (r >>= f).ReadsTo gate (ls ++ ms) rest (es ++ es') W
  := by
  intro c hc
  rw [List.append_assoc] at hc
  obtain ⟨a, c', hok, ha, hrest, hes, hneed⟩ := hr c hc
  obtain ⟨b, c'', hok', hb, hrest', hes', hneed'⟩ := hf a ha c' hrest
  obtain ⟨hsteps, hout⟩ := bind_of_ok f hok
  refine ⟨b, c'', hout.trans hok', hb, hrest', ?_, ?_⟩
  · rw [hsteps, Step.events_append, hes, hes']
  · intro req what hmem
    rw [hsteps] at hmem
    rcases List.mem_append.mp hmem with hmem | hmem
    · apply hneed req what hmem
    · apply hneed' req what hmem

/-- A reader that reports nothing, and what follows it. -/
theorem ReadsTo.bind_silent {r : Reader α} {f : α → Reader β} {ls ms rest : List Lexeme}
    {es : List Event} {V : α → Prop} {W : β → Prop} (hr : r.ReadsTo gate ls (ms ++ rest) [] V)
    (hf : ∀ a, V a → (f a).ReadsTo gate ms rest es W) :
  (r >>= f).ReadsTo gate (ls ++ ms) rest es W
  := hr.bind hf

/-- A reader of one lexeme that reports nothing, and what follows it. -/
theorem ReadsTo.bind_cons {r : Reader α} {f : α → Reader β} {l : Lexeme} {ms rest : List Lexeme}
    {es : List Event} {V : α → Prop} {W : β → Prop} (hr : r.ReadsTo gate [l] (ms ++ rest) [] V)
    (hf : ∀ a, V a → (f a).ReadsTo gate ms rest es W) :
  (r >>= f).ReadsTo gate (l :: ms) rest es W
  := hr.bind hf

/-- A reader that reads and reports nothing, and what follows it. -/
theorem ReadsTo.bind_nil {r : Reader α} {f : α → Reader β} {ms rest : List Lexeme}
    {es : List Event} {V : α → Prop} {W : β → Prop} (hr : r.ReadsTo gate [] (ms ++ rest) [] V)
    (hf : ∀ a, V a → (f a).ReadsTo gate ms rest es W) :
  (r >>= f).ReadsTo gate ms rest es W
  := hr.bind hf

theorem reads_pure {a : α} {V : α → Prop} (ha : V a) (rest : List Lexeme) :
  (pure a : Reader α).ReadsTo gate [] rest [] V
  := by
  intro c hc
  refine ⟨a, c, rfl, ha, hc, rfl, ?_⟩
  intro req what hmem
  contradiction

/-- A value that is given in the end. -/
theorem ReadsTo.bind_pure {r : Reader α} {ls rest : List Lexeme} {es : List Event}
    {V : α → Prop} (hr : r.ReadsTo gate ls rest es V) {f : α → β} {W : β → Prop}
    (hf : ∀ a, V a → W (f a)) :
  (do return f (← r)).ReadsTo gate ls rest es W
  := by
  rw [← List.append_nil ls, ← List.append_nil es]
  apply ReadsTo.bind hr
  intro a ha
  apply reads_pure (hf a ha)

/-- A silent reader reads what takes it from one cursor to the other. -/
theorem Silent.readsTo {r : Reader α} (hr : r.Silent) {ls rest : List Lexeme} {V : α → Prop}
    (h : ∀ c : Cursor, c.lexemes = ls ++ rest →
      ∃ a c', (r c).2 = .ok (a, c') ∧ V a ∧ c'.lexemes = rest) :
  r.ReadsTo gate ls rest [] V
  := by
  intro c hc
  obtain ⟨a, c', hok, ha, hrest⟩ := h c hc
  refine ⟨a, c', hok, ha, hrest, ?_, ?_⟩
  · rw [hr.steps_eq]
    rfl
  · intro req what hmem
    rw [hr.steps_eq] at hmem
    contradiction

/-! ### Single tokens -/

/-- The token that is next where a lexeme is. -/
theorem exists_of_lexemes_cons {c : Cursor} {l : Lexeme} {ls : List Lexeme}
    (h : c.lexemes = l :: ls) :
  ∃ t ts, c.rest = t :: ts ∧ t.lexeme = l ∧ ts.map Token.lexeme = ls
  := List.map_eq_cons_iff.mp h

/-- A silent reader that goes past the next token. -/
theorem Silent.readsTo_next {r : Reader α} (hr : r.Silent) {l : Lexeme} {V : α → Prop}
    (h : ∀ (t : Token) (ts : List Token) (last : Position), t.lexeme = l →
      ∃ a, (r ⟨t :: ts, last⟩).2 = .ok (a, ⟨ts, t.position⟩) ∧ V a) (rest : List Lexeme) :
  r.ReadsTo gate [l] rest [] V
  := by
  apply hr.readsTo
  rintro ⟨_, last⟩ hc
  obtain ⟨t, ts, rfl, ht, hts⟩ := exists_of_lexemes_cons hc
  obtain ⟨a, hok, ha⟩ := h t ts last ht
  exact ⟨a, ⟨ts, t.position⟩, hok, ha, hts⟩

/-- A silent reader that only looks at the next token. -/
theorem Silent.readsTo_look {r : Reader α} (hr : r.Silent) {l : Lexeme} {V : α → Prop}
    (h : ∀ (t : Token) (ts : List Token) (last : Position), t.lexeme = l →
      ∃ a, (r ⟨t :: ts, last⟩).2 = .ok (a, ⟨t :: ts, last⟩) ∧ V a) (rest : List Lexeme) :
  r.ReadsTo gate [] (l :: rest) [] V
  := by
  apply hr.readsTo
  rintro ⟨_, last⟩ hc
  obtain ⟨t, ts, rfl, ht, hts⟩ := exists_of_lexemes_cons hc
  obtain ⟨a, hok, ha⟩ := h t ts last ht
  exact ⟨a, ⟨t :: ts, last⟩, hok, ha, hc⟩

theorem reads_expect {p : Token → Bool} {l : Lexeme} (hp : ∀ t : Token, t.lexeme = l → p t)
    (options : List String) (rest : List Lexeme) :
  (expect p options).ReadsTo gate [l] rest [] (·.lexeme = l)
  := by
  apply (silent_expect p options).readsTo_next
  intro t ts last ht
  use t
  simp [expect, hp t ht, ht]

theorem reads_expectAfter {p : Token → Bool} {l : Lexeme} (hp : ∀ t : Token, t.lexeme = l → p t)
    (options : List String) (rest : List Lexeme) :
  (expectAfter p options).ReadsTo gate [l] rest [] (·.lexeme = l)
  := by
  apply (silent_expectAfter p options).readsTo_next
  intro t ts last ht
  use t
  simp [expectAfter, hp t ht, ht]

theorem reads_accept {p : Token → Bool} {l : Lexeme} (hp : ∀ t : Token, t.lexeme = l → p t)
    (rest : List Lexeme) :
  (accept p).ReadsTo gate [l] rest [] fun o => ∃ t, o = some t ∧ t.lexeme = l
  := by
  apply (silent_accept p).readsTo_next
  intro t ts last ht
  use some t
  simp [accept, hp t ht, ht]

/-- A token that does not satisfy the condition is not accepted. -/
theorem reads_accept_none {p : Token → Bool} {l : Lexeme}
    (hp : ∀ t : Token, t.lexeme = l → p t = false) (rest : List Lexeme) :
  (accept p).ReadsTo gate [] (l :: rest) [] (· = none)
  := by
  apply (silent_accept p).readsTo_look
  intro t ts last ht
  use none
  simp [accept, hp t ht]

/-- A choice where the next token is found. -/
theorem ReadsTo.ite_found {p : Token → Bool} {l : Lexeme} {r s : Reader α}
    {ms rest : List Lexeme} {es : List Event} {V : α → Prop}
    (hp : ∀ t : Token, t.lexeme = l → p t) (hr : r.ReadsTo gate ms rest es V) :
  (do if ← found p then r else s).ReadsTo gate (l :: ms) rest es V
  := by
  have hfound : (found p).ReadsTo gate [l] (ms ++ rest) [] (· = true) := by
    rw [found]
    apply (reads_accept hp _).bind_cons
    rintro _ ⟨t, rfl, -⟩
    apply reads_pure (V := (· = true)) rfl _
  apply hfound.bind_cons
  rintro _ rfl
  exact hr

/-- A choice where the next token is not found. -/
theorem ReadsTo.ite_not_found {p : Token → Bool} {l : Lexeme} {r s : Reader α}
    {ms tail rest : List Lexeme} {es : List Event} {V : α → Prop} (hnext : ms ++ rest = l :: tail)
    (hp : ∀ t : Token, t.lexeme = l → p t = false) (hs : s.ReadsTo gate ms rest es V) :
  (do if ← found p then r else s).ReadsTo gate ms rest es V
  := by
  have hfound : (found p).ReadsTo gate [] (ms ++ rest) [] (· = false) := by
    rw [found, hnext]
    apply (reads_accept_none hp _).bind_nil
    rintro _ rfl
    apply reads_pure (V := (· = false)) rfl _
  apply hfound.bind_nil
  rintro _ rfl
  exact hs

/-- A token has the kind of its lexeme. -/
theorem kind_of_lexeme {l : Lexeme} {kind : TokenKind} (h : l.kind = kind) :
  ∀ t : Token, t.lexeme = l → decide (t.kind = kind)
  := by
  rintro t rfl
  apply decide_eq_true h

theorem kind_ne_of_lexeme {l : Lexeme} {kind : TokenKind} (h : l.kind ≠ kind) :
  ∀ t : Token, t.lexeme = l → decide (t.kind = kind) = false
  := by
  rintro t rfl
  apply decide_eq_false h

theorem reads_opening (rest : List Lexeme) :
  opening.Reads gate [.opening] rest []
  := by
  apply (reads_expect (kind_of_lexeme rfl) _ _).bind_cons
  intro _ _
  apply reads_pure trivial _

theorem reads_closing (rest : List Lexeme) :
  closing.Reads gate [.closing] rest []
  := by
  apply (reads_expect (kind_of_lexeme rfl) _ _).bind_cons
  intro _ _
  apply reads_pure trivial _

/-- A parenthesis that is read in the end reports nothing. -/
theorem ReadsTo.bind_closing {r : Reader Unit} {ls rest : List Lexeme} {es : List Event}
    (hr : r.Reads gate ls (.closing :: rest) es) :
  Reads (do r; closing) gate (ls ++ [.closing]) rest es
  := by
  rw [← List.append_nil es]
  apply ReadsTo.bind hr
  intro _ _
  apply reads_closing

/-- A token is a name as its lexeme is. -/
theorem isName_of_lexeme {l : Lexeme} {word : String} {b : Bool} (h : l.isName word = b) :
  ∀ t : Token, t.lexeme = l → t.isName word = b
  := by
  rintro t rfl
  exact h

/-- A token is a keyword as its lexeme is. -/
theorem isKeyword_of_lexeme {l : Lexeme} {word : String} {b : Bool} (h : l.isKeyword word = b) :
  ∀ t : Token, t.lexeme = l → t.isKeyword word = b
  := by
  rintro t rfl
  exact h

/-- None of the words is next, so that nothing is refused. -/
theorem reads_refuse {words : List String} {l : Lexeme} (h : ∀ word ∈ words, l.isName word = false)
    (rest : List Lexeme) :
  (refuse words).Reads gate [] (l :: rest) []
  := by
  apply (silent_refuse words).readsTo_look
  intro t ts last ht
  have hfind : words.find? t.isName = none := by
    rw [List.find?_eq_none]
    intro word hword
    rw [isName_of_lexeme (h word hword) t ht]
    exact Bool.false_ne_true
  use ()
  simp [refuse, hfind]

/-! ### Reporting -/

/-- A step is reported, and if it needs a requirement, the requirement is there. -/
theorem reads_report {s : Step} (h : ∀ req what, s = .need req what → gate.allows req)
    (rest : List Lexeme) :
  (report s).Reads gate [] rest (Step.events [s])
  := by
  intro c hc
  refine ⟨(), c, rfl, trivial, hc, rfl, ?_⟩
  intro req what hmem
  apply h req what (List.mem_singleton.mp hmem).symm

theorem reads_named (r : Role) (t : Token) (rest : List Lexeme) :
  (named r t).Reads gate [] rest [.name r t.name]
  := reads_report (s := .event (.name r t.name)) nofun rest

/-- A name that is reported first is the first event. -/
theorem ReadsTo.named_bind {f : Reader α} {ms rest : List Lexeme} {es : List Event}
    {V : α → Prop} (hf : f.ReadsTo gate ms rest es V) (r : Role) (t : Token) :
  (do named r t; f).ReadsTo gate ms rest (.name r t.name :: es) V
  := (reads_named r t (ms ++ rest)).bind fun _ _ => hf

/-- A requirement that is there can be needed. -/
theorem reads_need {req : Requirement} (h : gate.allows req) (what : String)
    (rest : List Lexeme) :
  (need req what).Reads gate [] rest []
  := by
  apply reads_report
  rintro _ _ ⟨⟩
  exact h

theorem reads_within {r : Reader Unit} {ls rest : List Lexeme} {es : List Event} (k : Construct)
    (h : r.Reads gate ls rest es) :
  (within k r).Reads gate ls rest (Event.within k es)
  := by
  apply (reads_report (s := .event (.enter k)) nofun _).bind
  intro _ _
  rw [← List.append_nil ls]
  apply h.bind
  intro _ _
  apply reads_report (s := .event (.leave k)) nofun

/-! ### Repetition and nesting -/

theorem reads_untilClosingWithin_closing (step : σ → Reader σ) {n : Nat} (hn : 0 < n) {s : σ}
    {V : σ → Prop} (hs : V s) (rest : List Lexeme) :
  (untilClosingWithin step n s).ReadsTo gate [.closing] rest [] V
  := by
  obtain ⟨n, rfl⟩ := Nat.exists_eq_succ_of_ne_zero (Nat.ne_of_gt hn)
  apply ReadsTo.ite_found (kind_of_lexeme rfl)
  apply reads_pure hs

/-- One more repetition, which begins with a lexeme that is not the closing parenthesis. -/
theorem ReadsTo.untilClosingWithin {step : σ → Reader σ} {n : Nat} {s : σ} {l : Lexeme}
    {ls ms rest : List Lexeme} {es es' : List Event} {V W : σ → Prop} (hl : l.kind ≠ .closing)
    (hstep : (step s).ReadsTo gate (l :: ls) (ms ++ rest) es V)
    (h : ∀ s', V s' → (untilClosingWithin step n s').ReadsTo gate ms rest es' W) :
  (untilClosingWithin step (n + 1) s).ReadsTo gate (l :: ls ++ ms) rest (es ++ es') W
  := by
  apply ReadsTo.ite_not_found rfl (kind_ne_of_lexeme hl)
  apply hstep.bind h

/-- There are at least as many tokens as a reader reads. -/
theorem reads_untilClosing {step : σ → Reader σ} {s : σ} {ls rest : List Lexeme}
    {es : List Event} {V : σ → Prop}
    (h : ∀ n, ls.length ≤ n → (untilClosingWithin step n s).ReadsTo gate ls rest es V) :
  (untilClosing step s).ReadsTo gate ls rest es V
  := by
  intro c hc
  have hlength := congrArg List.length hc
  rw [Cursor.lexemes, List.length_map, List.length_append] at hlength
  apply h c.rest.length (by omega) c hc

/-- Items are read one after the other, where `I` holds of the items that are still to be read
and of the value that the items before them have led to. -/
theorem reads_untilClosing_items {ι : Type} (step : σ → Reader σ) (lexemes : ι → List Lexeme)
    (events : ι → List Event) {I : List ι → σ → Prop}
    (hstep : ∀ {x xs s}, I (x :: xs) s →
      ∀ rest, (step s).ReadsTo gate (lexemes x) rest (events x) (I xs))
    {items : List ι} (hhead : ∀ x ∈ items, ∃ l ls, lexemes x = l :: ls ∧ l.kind ≠ .closing) {s : σ}
    (hs : I items s) (rest : List Lexeme) :
  (untilClosing step s).ReadsTo gate (items.flatMap lexemes ++ [.closing]) rest
    (items.flatMap events) (I [])
  := by
  apply reads_untilClosing
  intro n hn
  induction items generalizing n s with
  | nil =>
    apply reads_untilClosingWithin_closing _ _ hs
    apply Nat.lt_of_lt_of_le Nat.zero_lt_one hn
  | cons x items ih =>
    rw [List.forall_mem_cons] at hhead
    obtain ⟨⟨l, ls, hx, hl⟩, hrest⟩ := hhead
    have hfirst := hstep hs (items.flatMap lexemes ++ [.closing] ++ rest)
    rw [List.flatMap_cons, hx, List.length_append, List.length_append, List.length_cons] at hn
    obtain ⟨n, rfl⟩ := Nat.exists_eq_succ_of_ne_zero (show n ≠ 0 by omega)
    rw [List.flatMap_cons, List.flatMap_cons, List.append_assoc, hx]
    rw [hx] at hfirst
    apply ReadsTo.untilClosingWithin hl hfirst
    intro _ hnext
    apply ih hrest hnext
    rw [List.length_append]
    omega

/-- Items of which none is reported. -/
theorem reads_untilClosing_silent {ι : Type} (step : σ → Reader σ) (lexemes : ι → List Lexeme)
    {I : List ι → σ → Prop}
    (hstep : ∀ {x xs s}, I (x :: xs) s →
      ∀ rest, (step s).ReadsTo gate (lexemes x) rest [] (I xs))
    {items : List ι} (hhead : ∀ x ∈ items, ∃ l ls, lexemes x = l :: ls ∧ l.kind ≠ .closing) {s : σ}
    (hs : I items s) (rest : List Lexeme) :
  (untilClosing step s).ReadsTo gate (items.flatMap lexemes ++ [.closing]) rest [] (I [])
  := by
  have hitems := reads_untilClosing_items step lexemes (fun _ => []) hstep hhead hs rest
  have hsilent : (items.flatMap fun _ => ([] : List Event)) = [] := by simp
  rwa [hsilent] at hitems

/-- A repeated reader reads items one after the other. -/
theorem reads_repeated {ι : Type} {r : Reader Unit} {items : List ι} (lexemes : ι → List Lexeme)
    (events : ι → List Event)
    (hhead : ∀ x ∈ items, ∃ l ls, lexemes x = l :: ls ∧ l.kind ≠ .closing)
    (h : ∀ x ∈ items, ∀ rest, r.Reads gate (lexemes x) rest (events x)) (rest : List Lexeme) :
  (repeated r).Reads gate (items.flatMap lexemes ++ [.closing]) rest (items.flatMap events)
  := by
  apply (reads_untilClosing_items (fun _ => r) lexemes events
    (I := fun xs _ => ∀ y ∈ xs, y ∈ items) _ hhead _ rest).imp
  · intro _ _
    trivial
  · intro x xs _ hxs rest
    rw [List.forall_mem_cons] at hxs
    apply (h x hxs.1 rest).imp
    intro _ _
    exact hxs.2
  · intro _ hy
    exact hy

/-- A list in parentheses is read by the reader of its contents. -/
theorem reads_nestedWithin {contents : Reader Unit → Reader Unit} {n : Nat}
    {ls rest : List Lexeme} {es : List Event}
    (h : (contents (nestedWithin contents n)).Reads gate ls rest es) :
  (nestedWithin contents (n + 1)).Reads gate (.opening :: ls) rest es
  := by
  apply (reads_opening _).bind_cons
  intro _ _
  exact h

/-- A list is not deeper than there are tokens in it. -/
theorem reads_nested {contents : Reader Unit → Reader Unit} {ls rest : List Lexeme}
    {es : List Event}
    (h : ∀ n, ls.length ≤ n → (nestedWithin contents n).Reads gate ls rest es) :
  (nested contents).Reads gate ls rest es
  := by
  intro c hc
  have hlength := congrArg List.length hc
  rw [Cursor.lexemes, List.length_map, List.length_append] at hlength
  apply h c.rest.length (by omega) c hc

end Reader

end PlanLang
