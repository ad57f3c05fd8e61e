import PlanLang.Proofs.Formula.Spelling
import PlanLang.Proofs.Reading

/-!
# Balanced lexemes

The contents of a section are passed over up to the parenthesis that closes it.  Among lexemes
whose parentheses are balanced there is no such parenthesis, and formulas are spelled by lexemes
of this kind.
-/

namespace PlanLang

/-- The lexeme is not a parenthesis. -/
def Lexeme.isPlain (l : Lexeme) : Bool :=
  l.kind ≠ .opening && l.kind ≠ .closing

/-- Lexemes in which each parenthesis has the one that it belongs to. -/
inductive Balanced : List Lexeme → Prop where
  | nil :
    Balanced []
  | single {l : Lexeme} (h : l.isPlain) :
    Balanced [l]
  | append {ls ms : List Lexeme} (h : Balanced ls) (h' : Balanced ms) :
    Balanced (ls ++ ms)
  | parenthesized {ls : List Lexeme} (h : Balanced ls) :
    Balanced (.opening :: (ls ++ [.closing]))

namespace Balanced

theorem cons {l : Lexeme} {ls : List Lexeme} (hl : l.isPlain) (h : Balanced ls) :
  Balanced (l :: ls)
  := append (single hl) h

/-- One list of lexemes after the other. -/
theorem flatMap {ι : Type} {items : List ι} {lexemes : ι → List Lexeme}
    (h : ∀ x ∈ items, Balanced (lexemes x)) :
  Balanced (items.flatMap lexemes)
  := by
  induction items with
  | nil => exact nil
  | cons x items ih =>
    rw [List.forall_mem_cons] at h
    rw [List.flatMap_cons]
    apply append h.1 (ih h.2)

theorem map {ι : Type} (items : List ι) {lexeme : ι → Lexeme} (h : ∀ x, (lexeme x).isPlain) :
  Balanced (items.map lexeme)
  := by
  rw [List.map_eq_flatMap]
  apply flatMap
  intro x _
  apply single (h x)

end Balanced

/-! ### Formulas -/

theorem Ty.balanced_lexemes (t : Ty) :
  Balanced t.lexemes
  := by
  rw [lexemes]
  split
  · exact .single rfl
  · exact .parenthesized (.cons rfl (.map _ fun _ => rfl))

theorem Term.isPlain_lexeme (t : Term) :
  t.lexeme.isPlain
  := by
  cases t <;> rfl

theorem TypedList.balanced_lexemes {item : String → Lexeme} (h : ∀ n, (item n).isPlain)
    (l : TypedList) :
  Balanced (l.lexemes item)
  := by
  rw [lexemes]
  apply Balanced.append
  · apply Balanced.flatMap
    rintro ⟨names, t⟩ _
    exact .append (.map names h) (.cons rfl t.balanced_lexemes)
  · exact .map l.trailing h

namespace Formula

mutual

theorem balanced_lexemes :
  ∀ f : Formula, Balanced f.lexemes
  | .atom a => .parenthesized (.cons rfl (.map a.terms Term.isPlain_lexeme))
  | .negation f => .parenthesized (.cons rfl f.balanced_lexemes)
  | .conjunction fs => .parenthesized (.cons rfl (balanced_lexemesAll fs))
  | .equality l r => by
      have hterms := Balanced.map [l, r] Term.isPlain_lexeme
      exact .parenthesized (.cons (l := .equals) rfl hterms)
  | .universal vs f => by
      have hvariables := TypedList.balanced_lexemes (fun _ => rfl : ∀ n, (Lexeme.var n).isPlain)
        (.ofVariables vs)
      have hcontents := hvariables.parenthesized.append f.balanced_lexemes
      have hlist := (hcontents.cons (l := .name "forall") rfl).parenthesized
      simpa [lexemes] using hlist
  | .conditional c e => by
      have hcontents := c.balanced_lexemes.append e.balanced_lexemes
      have hlist := (hcontents.cons (l := .name "when") rfl).parenthesized
      simpa [lexemes] using hlist

theorem balanced_lexemesAll :
  ∀ fs : List Formula, Balanced (lexemesAll fs)
  | [] => .nil
  | f :: fs => .append f.balanced_lexemes (balanced_lexemesAll fs)

end

end Formula

/-! ### Passing over lexemes -/

namespace Reader

theorem pastClosing_opening {t : Token} (h : t.kind = .opening) (depth : Nat) (last : Position)
    (ts : List Token) :
  pastClosing depth last (t :: ts) = pastClosing (depth + 1) t.position ts
  := by
  simp [pastClosing, h]

/-- A parenthesis that closes an inner list. -/
theorem pastClosing_closing {t : Token} (h : t.kind = .closing) (depth : Nat) (last : Position)
    (ts : List Token) :
  pastClosing (depth + 1) last (t :: ts) = pastClosing depth t.position ts
  := by
  simp [pastClosing, h]

/-- The parenthesis that closes the whole list. -/
theorem pastClosing_closing_zero {t : Token} (h : t.kind = .closing) (last : Position)
    (ts : List Token) :
  pastClosing 0 last (t :: ts) = ⟨ts, t.position⟩
  := by
  simp [pastClosing, h]

theorem pastClosing_plain {t : Token} (h : t.lexeme.isPlain) (depth : Nat) (last : Position)
    (ts : List Token) :
  pastClosing depth last (t :: ts) = pastClosing depth t.position ts
  := by
  simp only [Lexeme.isPlain, Bool.and_eq_true, decide_eq_true_eq] at h
  obtain ⟨hopening, hclosing⟩ := h
  cases hkind : t.kind with
  | opening => contradiction
  | closing => contradiction
  | _ => simp [pastClosing, hkind]

/-- Balanced lexemes are passed over at any depth. -/
theorem pastClosing_balanced {ls : List Lexeme} (h : Balanced ls) :
  ∀ {tokens : List Token}, tokens.map Token.lexeme = ls → ∀ (depth : Nat) (last : Position) ts,
    ∃ last', pastClosing depth last (tokens ++ ts) = pastClosing depth last' ts
  := by
  induction h with
  | nil =>
    intro tokens htokens depth last ts
    obtain rfl := List.map_eq_nil_iff.mp htokens
    exact ⟨last, rfl⟩
  | single hplain =>
    intro tokens htokens depth last ts
    obtain ⟨t, rfl, rfl⟩ := List.map_eq_singleton_iff.mp htokens
    exact ⟨t.position, pastClosing_plain hplain depth last ts⟩
  | append _ _ ih ih' =>
    intro tokens htokens depth last ts
    obtain ⟨us, vs, rfl, hus, hvs⟩ := List.map_eq_append_iff.mp htokens
    obtain ⟨last', hfirst⟩ := ih hus depth last (vs ++ ts)
    obtain ⟨last'', hsecond⟩ := ih' hvs depth last' ts
    use last''
    rw [List.append_assoc, hfirst, hsecond]
  | parenthesized _ ih =>
    intro tokens htokens depth last ts
    obtain ⟨s, _, rfl, hs, htokens⟩ := List.map_eq_cons_iff.mp htokens
    obtain ⟨us, _, rfl, hus, htokens⟩ := List.map_eq_append_iff.mp htokens
    obtain ⟨t, rfl, ht⟩ := List.map_eq_singleton_iff.mp htokens
    obtain ⟨last', hinside⟩ := ih hus (depth + 1) s.position ([t] ++ ts)
    use t.position
    rw [List.cons_append, pastClosing_opening (congrArg Lexeme.kind hs), List.append_assoc, hinside,
      List.singleton_append, pastClosing_closing (congrArg Lexeme.kind ht)]

/-- Contents that are balanced are skipped with the parenthesis that closes them. -/
theorem reads_skipContents {gate : Gate} {ls : List Lexeme} (h : Balanced ls)
    (rest : List Lexeme) :
  skipContents.ReadsTo gate (ls ++ [.closing]) rest []
    fun tokens => tokens.map Token.lexeme = ls ++ [.closing] ++ rest
  := by
  apply silent_skipContents.readsTo
  rintro ⟨_, last⟩ hc
  obtain ⟨_, us, rfl, hclosed, hus⟩ := List.map_eq_append_iff.mp hc
  obtain ⟨ts, _, rfl, hts, hlast⟩ := List.map_eq_append_iff.mp hclosed
  obtain ⟨t, rfl, ht⟩ := List.map_eq_singleton_iff.mp hlast
  obtain ⟨last', hskip⟩ := pastClosing_balanced h hts 0 last ([t] ++ us)
  refine ⟨_, ⟨us, t.position⟩, ?_, hc, hus⟩
  rw [skipContents, List.append_assoc, hskip, List.singleton_append,
    pastClosing_closing_zero (congrArg Lexeme.kind ht)]

end Reader

end PlanLang
