import PlanLang.Proofs.Section

/-!
# What sections declare

What a section declares is found in its report.  Whether the reader of the section comes to its
end, and what it reports, depends on the tokens only.  The gate is checked against what is reported
as needed, and the default type goes to what is declared without a type.
-/

namespace PlanLang

/-- The tokens in front of a cursor, of those from which it has been reached. -/
def Cursor.passed (c : Cursor) (tokens : List Token) : List Token :=
  tokens.take (tokens.length - c.rest.length)

theorem Cursor.passed_eq {c : Cursor} {tokens ts : List Token} (h : tokens = ts ++ c.rest) :
  c.passed tokens = ts
  := by
  simp [passed, h]

namespace Reader

variable {α β : Type}

/-- If two readers come to their end one after the other, then so does each of them. -/
theorem exists_of_bind {r : Reader α} {f : α → Reader β} {c c'' : Cursor} {b : β}
    (h : ((r >>= f) c).2 = .ok (b, c'')) :
  ∃ a c', (r c).2 = .ok (a, c') ∧ (f a c').2 = .ok (b, c'')
  := by
  cases hr : (r c).2 with
  | error e =>
    rw [(bind_of_error f hr).2] at h
    contradiction
  | ok p =>
    rw [(bind_of_ok f hr).2] at h
    exact ⟨p.1, p.2, rfl, h⟩

/-- The value of a reader that ends with the value `f a` is found from the value `a` before. -/
theorem exists_of_bind_pure {r : Reader α} {f : α → β} {c c' : Cursor} {b : β}
    (h : ((r >>= fun a => pure (f a)) c).2 = .ok (b, c')) :
  ∃ a, (r c).2 = .ok (a, c') ∧ b = f a
  := by
  obtain ⟨a, c'', hr, hpure⟩ := exists_of_bind h
  cases hpure
  exact ⟨a, hr, rfl⟩

/-- The name of an action is the token that is read first. -/
theorem head?_of_action {c c' : Cursor} {name : Token} (h : (action c).2 = .ok (name, c')) :
  name ∈ c.rest.head? ∧ name.kind = .name
  := by
  obtain ⟨t, _, hname, hrest⟩ := exists_of_bind h
  obtain ⟨_, _, -, hrest⟩ := exists_of_bind hrest
  obtain ⟨_, _, -, hrest⟩ := exists_of_bind hrest
  obtain ⟨_, _, -, hrest⟩ := exists_of_bind hrest
  obtain ⟨_, _, -, hrest⟩ := exists_of_bind hrest
  obtain ⟨_, _, -, hrest⟩ := exists_of_bind hrest
  obtain ⟨_, -, rfl⟩ := exists_of_bind_pure hrest
  obtain ⟨hhead, hkind⟩ := head?_of_expect hname
  exact ⟨hhead, of_decide_eq_true hkind⟩

end Reader

namespace SectionKind

/-- The value of the reader of a section is what the draft holds; an action has the name that is
read first. -/
theorem exists_of_reader {k : SectionKind} {value : Draft → Section} {c c' : Cursor}
    (h : (k.reader c).2 = .ok (value, c')) :
  ∃ name, (k = .action → name ∈ c.rest.head? ∧ name.kind = .name) ∧ value = k.result name
  := by
  cases k with
  | action =>
    obtain ⟨name, haction, rfl⟩ := Reader.exists_of_bind_pure h
    exact ⟨name, fun _ => Reader.head?_of_action haction, rfl⟩
  | _ =>
    obtain ⟨_, -, rfl⟩ := Reader.exists_of_bind_pure h
    exact ⟨⟨.name, "", 0, .start⟩, nofun, rfl⟩

/-- Where the reader of a section stops, reading the section fails if the gate does not before. -/
theorem read_of_error {k : SectionKind} {tokens : List Token} {e : SyntaxError}
    (h : (k.reader (.start tokens)).2 = .error e) (gate : Gate) (T : Option Ty) :
  k.read gate T tokens = (gate.check (k.reader (.start tokens)).1).bind fun _ => .error e
  := by
  obtain ⟨d, hd⟩ := (k.emits_reader T).accepted (.start tokens)
  rw [read, Reader.draft_eq gate hd, h]
  cases gate.check (k.reader (.start tokens)).1 <;> rfl

/-- Where the reader of a section comes to its end, there is a section that it has reported, and
this is what reading gives if the gate allows what it needs. -/
theorem read_of_ok {k : SectionKind} {tokens : List Token} {value : Draft → Section} {c : Cursor}
    (h : (k.reader (.start tokens)).2 = .ok (value, c)) :
  ∃ name s annotated, value = k.result name ∧
    (k = .action → name ∈ tokens.head? ∧ name.kind = .name) ∧ s.hasGrammar ∧
    Section.Report name k s (Step.events (k.reader.steps (.start tokens))) ∧
    Step.needs (k.reader.steps (.start tokens)) = s.needs annotated ∧
    ∀ gate T, k.read gate T tokens =
      (gate.check (k.reader (.start tokens)).1).map fun _ => (s.withDefault T, c)
  := by
  obtain ⟨name, hname, rfl⟩ := exists_of_reader h
  obtain ⟨s, annotated, hgrammar, hreport, hneeds⟩ := (k.emits_reports _).whole h name
  refine ⟨name, s, annotated, rfl, hname, hgrammar, hreport, hneeds, ?_⟩
  intro gate T
  obtain ⟨note, hnote, hvalue⟩ := hreport.notes hgrammar T
  rw [read, Reader.draft_eq gate (hnote (.new T) rfl).1, h, ← hvalue]
  cases gate.check (k.reader (.start tokens)).1 <;> rfl

/-- A section that is read is the one that is reported, with a default type. -/
theorem exists_report_of_read {k : SectionKind} {gate : Gate} {T : Option Ty} {tokens : List Token}
    {s : Section} {c : Cursor} (h : k.read gate T tokens = .ok (s, c)) :
  ∃ name s' annotated, s = s'.withDefault T ∧
    (k.reader (.start tokens)).2 = .ok (k.result name, c) ∧
    (k = .action → name ∈ tokens.head? ∧ name.kind = .name) ∧ s'.hasGrammar ∧
    Section.Report name k s' (Step.events (k.reader.steps (.start tokens))) ∧
    Step.needs (k.reader.steps (.start tokens)) = s'.needs annotated
  := by
  cases hreader : (k.reader (.start tokens)).2 with
  | error e =>
    rw [read_of_error hreader] at h
    cases hcheck : gate.check (k.reader (.start tokens)).1 <;> simp [hcheck, Except.bind] at h
  | ok p =>
    obtain ⟨value, c'⟩ := p
    obtain ⟨name, s', annotated, rfl, hname, hgrammar, hreport, hneeds, hread⟩ :=
      read_of_ok hreader
    rw [hread] at h
    cases hcheck : gate.check (k.reader (.start tokens)).1 with
    | error e => simp [hcheck, Except.map] at h
    | ok u =>
      rw [hcheck] at h
      cases h
      exact ⟨name, s', annotated, rfl, rfl, hname, hgrammar, hreport, hneeds⟩

/-- Where a section is read, its reader comes to its end. -/
theorem exists_of_read {k : SectionKind} {gate : Gate} {T : Option Ty} {tokens : List Token}
    {s : Section} {c : Cursor} (h : k.read gate T tokens = .ok (s, c)) :
  ∃ value, (k.reader (.start tokens)).2 = .ok (value, c)
  := by
  obtain ⟨name, _, _, -, hreader, -⟩ := exists_report_of_read h
  exact ⟨k.result name, hreader⟩

/-- An error in a section is one of the check of what is needed or one of the reader. -/
theorem check_or_reader_of_read {k : SectionKind} {gate : Gate} {T : Option Ty}
    {tokens : List Token} {e : SyntaxError} (h : k.read gate T tokens = .error e) :
  gate.check (k.reader (.start tokens)).1 = .error e ∨ (k.reader (.start tokens)).2 = .error e
  := by
  cases hcheck : gate.check (k.reader (.start tokens)).1 with
  | error e' =>
    left
    cases hreader : (k.reader (.start tokens)).2 with
    | error e => simpa [read_of_error hreader, hcheck, Except.bind] using h
    | ok p =>
      obtain ⟨value, c⟩ := p
      obtain ⟨_, _, _, -, -, -, -, -, hread⟩ := read_of_ok hreader
      simpa [hread, hcheck, Except.map] using h
  | ok u =>
    right
    cases hreader : (k.reader (.start tokens)).2 with
    | error e => simpa [read_of_error hreader, hcheck, Except.bind] using h
    | ok p =>
      obtain ⟨value, c⟩ := p
      obtain ⟨_, _, _, -, -, -, -, -, hread⟩ := read_of_ok hreader
      simp [hread, hcheck, Except.map] at h

/-- A section that is read without a default type is the one that is reported. -/
theorem report_of_read {k : SectionKind} {gate : Gate} {tokens : List Token} {s : Section}
    {c : Cursor} (h : k.read gate none tokens = .ok (s, c)) :
  ∃ name annotated, (k.reader (.start tokens)).2 = .ok (k.result name, c) ∧
    (k = .action → name ∈ tokens.head? ∧ name.kind = .name) ∧ s.hasGrammar ∧
    Section.Report name k s (Step.events (k.reader.steps (.start tokens))) ∧
    Step.needs (k.reader.steps (.start tokens)) = s.needs annotated
  := by
  obtain ⟨name, s', annotated, rfl, hreader, hname, hgrammar, hreport, hneeds⟩ :=
    exists_report_of_read h
  rw [Section.withDefault_none]
  exact ⟨name, annotated, hreader, hname, hgrammar, hreport, hneeds⟩

/-- Reading a section is reading it where no construct is held back and nothing is filled in, but
for the check of what it needs and for the types of what is declared without a type. -/
theorem read_eq (k : SectionKind) (gate : Gate) (T : Option Ty) (tokens : List Token) :
  k.read gate T tokens = (gate.check (k.reader (.start tokens)).1).bind fun _ =>
    (k.read .unlimited none tokens).map fun (s, c) => (s.withDefault T, c)
  := by
  cases hreader : (k.reader (.start tokens)).2 with
  | error e => rw [read_of_error hreader, read_of_error hreader, Gate.check_unlimited]; rfl
  | ok p =>
    obtain ⟨value, c⟩ := p
    obtain ⟨_, s, _, -, -, -, -, -, hread⟩ := read_of_ok hreader
    rw [hread, hread, Gate.check_unlimited, Section.withDefault_none]
    cases gate.check (k.reader (.start tokens)).1 <;> rfl

end SectionKind

end PlanLang
