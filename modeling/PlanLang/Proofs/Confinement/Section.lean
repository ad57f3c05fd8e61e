import PlanLang.Proofs.Confinement.Formula
import PlanLang.Proofs.Section.Value

/-!
# Sections within parentheses

A section is read from the tokens up to the parenthesis that closes it.  It ends there and nowhere
else, an error points at one of these tokens, and what comes after them does not matter.
-/

namespace PlanLang

namespace Reader

variable {ts : List Token} {M : Nat}

/-! ### The parts of sections -/

theorem confined_predicate :
  Confined ts M 1 predicate predicate
  := by
  intro N m c hN hc
  apply ConfinedAt.expect_bind (fun _ => of_decide_eq_true) hc
  intro _ c _ _ hc
  apply ConfinedAt.expect_bind (fun _ => of_decide_eq_true) hc.inside
  intro t c ht hkind hc
  apply ConfinedAt.within
  apply ConfinedAt.within
  apply ConfinedAt.named_bind ht (.inl (of_decide_eq_true hkind))
  apply confined_variableList N (m + 1) c hN hc.inside

theorem confined_initLiteral :
  Confined ts M 1 initLiteral initLiteral
  := by
  intro N m c hN hc
  apply ConfinedAt.expect_bind (fun _ => of_decide_eq_true) hc
  intro _ c _ _ hc
  apply ConfinedAt.within
  apply ConfinedAt.ite_found (fun _ => Token.kind_of_isName) hc.inside
  · intro c hc
    apply confined_negatedAtom confined_groundTerm N (m + 1) c hN hc.inside
  · apply confined_atom confined_groundTerm N (m + 1) c hN hc.inside

/-- The part of an action that a keyword introduces may be left out, so that nothing is read. -/
theorem confinedAt_introducedBy {N m : Nat} {c : Cursor} (word : String) (part : Part)
    {r : Reader Unit} (h : Confined ts M 1 r r) (hN : N ≤ M) (hc : c.Inside ts N (m + 1)) :
  ConfinedAt ts c (introducedBy word (within (.part part) (orEmpty r)))
    (introducedBy word (within (.part part) (orEmpty r))) fun _ => Cursor.Inside ts N (m + 1)
  := by
  apply ConfinedAt.ite_found (fun _ => Token.kind_of_isKeyword) hc
  · intro c hc
    apply ConfinedAt.within
    apply (confined_orEmpty h N m c hN hc.inside).mono
    intro _ c hc
    exact hc.inside
  · exact ConfinedAt.pure (Q := fun _ => Cursor.Inside ts N (m + 1)) hc

theorem confined_action :
  Confined ts M 0 action action
  := by
  intro N m c hN hc
  apply ConfinedAt.expect_bind (fun _ => of_decide_eq_true) hc
  intro name c _ _ hc
  apply ConfinedAt.expectAfter_bind (fun _ => Token.kind_of_isKeyword) hc
  intro _ c hc
  apply ConfinedAt.opening_bind hc.inside
  intro c hc
  have hlist : ConfinedAt ts c (within (.part .parameters) variableList)
      (within (.part .parameters) variableList) fun _ => Cursor.Past ts N (m + 1) :=
    ConfinedAt.within (confined_variableList N (m + 1) c hN hc.inside)
  apply hlist.bind
  intro _ c hc
  apply (confinedAt_introducedBy ":precondition" _ confined_goal hN hc.inside).bind
  intro _ c hc
  apply (confinedAt_introducedBy ":effect" _ confined_effect hN hc).bind
  intro _ c hc
  apply ConfinedAt.expect_bind (fun _ => of_decide_eq_true) hc
  intro _ c _ _ hc
  exact ConfinedAt.pure (Q := fun _ => Cursor.Past ts N m) hc

end Reader

namespace SectionKind

open Reader

/-! ### Sections -/

/-- The reader of a section reads the parenthesis that closes the section and stays before what
follows. -/
theorem confined_reader {ts : List Token} {M : Nat} (k : SectionKind) :
  Confined ts M 0 k.reader k.reader
  := by
  have hvalue : ∀ {α : Type} {r : Reader α} {f : α → Draft → Section}, Confined ts M 0 r r →
      Confined ts M 0 (r >>= fun a => pure (f a)) (r >>= fun a => pure (f a)) := by
    intro α r f h N m c hN hc
    apply (h N m c hN hc).bind
    intro a c hc
    exact ConfinedAt.pure (Q := fun _ => Cursor.Past ts N m) hc
  have hwithin : ∀ {k : Construct} {r : Reader Unit}, Confined ts M 0 r r →
      Confined ts M 0 (within k r) (within k r) := by
    intro k r h N m c hN hc
    apply ConfinedAt.within (h N m c hN hc)
  cases k with
  | types => exact hvalue (hwithin (confined_typedList (.inl rfl) _ _))
  | constants => exact hvalue (hwithin (confined_typedList (.inl rfl) _ _))
  | predicates => exact hvalue confined_predicate.repeated
  | action => exact hvalue confined_action
  | objects => exact hvalue (hwithin (confined_typedList (.inl rfl) _ _))
  | init => exact hvalue confined_initLiteral.repeated
  | goal =>
    have hgoal : Confined ts M 0 (do orEmpty Reader.goal; closing)
        (do orEmpty Reader.goal; closing) := by
      intro N m c hN hc
      apply (confined_orEmpty confined_goal N m c hN hc).bind
      intro _ c hc
      apply ConfinedAt.closing hc.inside
    exact hvalue (hwithin hgoal)

/-- A section is read from its own tokens; it ends with the last of them, which closes it. -/
theorem confinedAt_reader (k : SectionKind) {own : List Token} (hown : closes 1 own) :
  ConfinedAt own (.start own) k.reader k.reader fun _ c =>
    ∃ inside q, own = inside ++ [q] ∧ c = ⟨[], q.position⟩
  := by
  have hc : (Cursor.start own).Inside own own.length 1 := ⟨List.suffix_rfl, hown, le_rfl⟩
  apply (k.confined_reader own.length 0 _ le_rfl hc).mono
  intro _ ⟨rest, last⟩ hpast
  obtain rfl : rest = [] := by simpa [closes] using hpast.closes
  obtain ⟨inside, q, hq, rfl⟩ := hpast.read
  exact ⟨inside, q, hq, rfl⟩

/-- What follows the tokens of a section stays unread and makes no difference. -/
theorem read_append (k : SectionKind) (gate : Gate) (T : Option Ty) {own : List Token}
    (hown : closes 1 own) (rest : List Token) :
  k.read gate T (own ++ rest) = (k.read gate T own).map fun (s, c) => (s, c.append rest)
  := by
  have happend : k.reader (.start (own ++ rest)) = extend rest (k.reader (.start own)) :=
    (k.confinedAt_reader hown).append rest
  simp only [read, draft, happend, extend]
  rcases k.reader (.start own) with ⟨ps, outcome⟩
  cases (Draft.new T).follow gate ps with
  | error e => rfl
  | ok d => cases outcome <;> rfl

/-- A section that can be read ends with the parenthesis that closes it. -/
theorem cursor_of_read {k : SectionKind} {gate : Gate} {T : Option Ty} {own : List Token}
    (hown : closes 1 own) {s : Section} {c : Cursor} (h : k.read gate T own = .ok (s, c)) :
  ∃ inside q, own = inside ++ [q] ∧ c = ⟨[], q.position⟩
  := by
  obtain ⟨value, hreader⟩ := exists_of_read h
  exact (k.confinedAt_reader hown).whole hreader

/-- An error in a section is about one of its tokens. -/
theorem isAt_of_read {k : SectionKind} {gate : Gate} {T : Option Ty} {own : List Token}
    (hown : closes 1 own) {e : SyntaxError} (h : k.read gate T own = .error e) :
  e.IsAt own
  := by
  have hconfined := k.confinedAt_reader hown
  rcases check_or_reader_of_read h with hcheck | hreader
  · obtain ⟨r, what, hkind, -, hmem⟩ := Gate.exists_of_check_error hcheck
    refine ⟨?_, hconfined.steps _ hmem⟩
    rw [hkind]
    exact nofun
  · exact hconfined.part hreader

end SectionKind

end PlanLang
