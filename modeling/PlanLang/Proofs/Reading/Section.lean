import PlanLang.Proofs.Reading.Formula
import PlanLang.Proofs.Section.Value
import PlanLang.Proofs.Written.Section

/-!
# Reading sections

In front of what a section is written as, the section is read to its end, and it declares what is
written.
-/

namespace PlanLang

open Formula (Written Writing WrittenOption WrittenPart)

namespace Reader

variable {gate : Gate}

/-! ### Initial states -/

/-- A literal of an initial state is read from what it is written as. -/
theorem reads_initLiteral {f : Formula} {ls : List Lexeme} {es : List Event}
    (h : f.Written ls es) (hf : f.isInitLiteral) (rest : List Lexeme) :
  initLiteral.Reads gate ls rest (Event.within (.part .initLiteral) es)
  := by
  have hground : ∀ {ts : List WrittenTerm}, (ts.map WrittenTerm.term).all Term.isConst →
      ∀ t ∈ ts, ∀ rest, groundTerm.Reads gate [t.lexeme] rest [t.event] := by
    intro ts hconst t ht
    apply reads_groundTerm
    apply List.all_eq_true.mp hconst t.term (List.mem_map_of_mem ht)
  obtain ⟨l, tail, rfl, -⟩ := h.exists_lexemes
  apply (reads_expect (kind_of_lexeme rfl) _ _).bind_cons
  intro _ _
  apply reads_within
  cases h with
  | atom name hts =>
    rw [Formula.isInitLiteral, Bool.and_eq_true] at hf
    have hnot : (Lexeme.name name).isName "not" = false := by
      have hlower : ∀ word ∈ ["not"], word.toLower = word := by decide +kernel
      apply Lexeme.isName_name hlower _ _ List.mem_cons_self
      simpa using hf.1
    apply ReadsTo.ite_not_found rfl (isName_of_lexeme hnot)
    apply reads_atom (hground hf.2)
  | negation h =>
    cases h with
    | atom name hts =>
      apply ReadsTo.ite_found (isName_of_lexeme (by decide +kernel))
      apply reads_negatedAtom (hground hf)
    | _ => contradiction
  | _ => contradiction

/-! ### Formulas that may be missing -/

/-- An empty list is accepted. -/
theorem reads_acceptEmptyList (rest : List Lexeme) :
  acceptEmptyList.ReadsTo gate [.opening, .closing] rest [] (· = true)
  := by
  apply silent_acceptEmptyList.readsTo
  rintro ⟨_, last⟩ hc
  obtain ⟨s, _, rfl, hs, hc⟩ := List.map_eq_cons_iff.mp hc
  obtain ⟨t, ts, rfl, ht, hts⟩ := List.map_eq_cons_iff.mp hc
  have hopening : s.kind = .opening := congrArg Lexeme.kind hs
  have hclosing : t.kind = .closing := congrArg Lexeme.kind ht
  refine ⟨true, ⟨ts, t.position⟩, ?_, rfl, hts⟩
  simp [acceptEmptyList, hopening, hclosing]

/-- A list that is not empty is not accepted. -/
theorem reads_acceptEmptyList_nonempty {l : Lexeme} (hl : l.kind ≠ .closing)
    (rest : List Lexeme) :
  acceptEmptyList.ReadsTo gate [] (.opening :: l :: rest) [] (· = false)
  := by
  apply silent_acceptEmptyList.readsTo
  rintro ⟨_, last⟩ hc
  obtain ⟨s, _, rfl, hs, hrest⟩ := List.map_eq_cons_iff.mp hc
  obtain ⟨t, ts, rfl, ht, hts⟩ := List.map_eq_cons_iff.mp hrest
  have hclosing : ¬ (t.kind = .closing) := by
    rw [← ht] at hl
    exact hl
  refine ⟨false, ⟨s :: t :: ts, last⟩, ?_, rfl, hc⟩
  simp [acceptEmptyList, hclosing]

/-- A formula or an empty list is read from what it is written as. -/
theorem reads_orEmpty {r : Reader Unit} {f : Option Formula} {ls rest : List Lexeme}
    {es : List Event} (h : WrittenOption f ls es)
    (hr : ∀ g ∈ f, ∀ ls es, g.Written ls es → r.Reads gate ls rest es) :
  (orEmpty r).Reads gate ls rest es
  := by
  cases h with
  | none =>
    refine ReadsTo.bind_silent (reads_acceptEmptyList _) ?_
    rintro _ rfl
    apply reads_pure trivial _
  | some h =>
    have hread := hr _ rfl _ _ h
    obtain ⟨l, tail, rfl, hl⟩ := h.exists_lexemes
    apply (reads_acceptEmptyList_nonempty hl _).bind_nil
    rintro _ rfl
    exact hread

/-- A part of an action is read where a later part or the end of the action follows. -/
theorem reads_introducedBy {word keyword : String} {p : Part} {r : Reader Unit}
    {f : Option Formula} {ls tail : List Lexeme} {es : List Event} {l : Lexeme}
    (h : WrittenPart word p f ls es) (hword : (Lexeme.keyword word).isKeyword keyword)
    (hl : l.isKeyword keyword = false)
    (hr : ∀ g ∈ f, ∀ ls es, g.Written ls es → r.Reads gate ls (l :: tail) es) :
  (introducedBy keyword (within (.part p) (orEmpty r))).Reads gate ls (l :: tail) es
  := by
  cases h with
  | absent =>
    apply ReadsTo.ite_not_found rfl (isKeyword_of_lexeme hl)
    apply reads_pure trivial
  | introduced h =>
    apply ReadsTo.ite_found (isKeyword_of_lexeme hword)
    apply reads_within
    apply reads_orEmpty h hr

/-! ### Actions -/

/-- What follows the precondition is not the keyword of a precondition. -/
theorem exists_after_precondition {f : Option Formula} {ls : List Lexeme} {es : List Event}
    (h : WrittenPart "effect" .effect f ls es) (rest : List Lexeme) :
  ∃ l tail, ls ++ .closing :: rest = l :: tail ∧ l.isKeyword ":precondition" = false
  := by
  cases h with
  | absent => exact ⟨_, _, rfl, by decide +kernel⟩
  | introduced h => exact ⟨_, _, rfl, by decide +kernel⟩

/-- An action is read from what its parts are written as. -/
theorem reads_action (hgate : gate.AllowsFormulas) {name : Token} (hname : name.kind = .name)
    {l : WrittenList} (hl : l.IsProper) {f g : Option Formula} {ls ms : List Lexeme}
    {es es' : List Event} (hf : WrittenPart "precondition" .precondition f ls es)
    (hg : WrittenPart "effect" .effect g ms es') (hgoal : ∀ h ∈ f, h.isGoal)
    (heffect : ∀ h ∈ g, h.isEffect) (rest : List Lexeme) :
  action.ReadsTo gate
    (name.lexeme :: .keyword "parameters" :: .opening ::
      ((l.lexemes .var ++ [.closing]) ++ (ls ++ (ms ++ [.closing])))) rest
    (Event.within (.part .parameters) (l.events .variable .typedList) ++ (es ++ es'))
    fun _ => True
  := by
  apply (reads_expect (kind_of_lexeme hname) _ _).bind_cons
  intro _ _
  apply (reads_expectAfter (isKeyword_of_lexeme (by decide +kernel)) _ _).bind_cons
  intro _ _
  apply (reads_opening _).bind_cons
  intro _ _
  apply (reads_within _ (reads_variableList hgate.typing hl.names_ne_nil _)).bind
  intro _ _
  obtain ⟨next, tail, hnext, hkeyword⟩ := exists_after_precondition hg rest
  apply ReadsTo.bind
  · rw [List.append_assoc, List.singleton_append, hnext]
    apply reads_introducedBy hf (by decide +kernel) hkeyword
    intro h hmem _ _ hwritten
    apply reads_goal hgate hwritten (hgoal h hmem)
  · intro _ _
    rw [← List.append_nil es']
    apply ReadsTo.bind
    · apply reads_introducedBy hg (by decide +kernel) (by decide +kernel)
      intro h hmem _ _ hwritten
      apply reads_effect hgate hwritten (heffect h hmem)
    · intro _ _
      apply (reads_expect (kind_of_lexeme rfl) _ _).bind_pure
      intro _ _
      trivial

end Reader

/-! ### Sections -/

namespace SectionKind

open Reader

variable {gate : Gate} {name : Token} {k : SectionKind} {s : Section} {ls : List Lexeme}
  {es : List Event}

/-- The reader of a section reads what the section is written as. -/
theorem reads_reader (hgate : gate.AllowsFormulas) (h : s.Written name k ls es)
    (hs : s.hasGrammar) (rest : List Lexeme) :
  k.reader.ReadsTo gate ls rest es fun _ => True
  := by
  cases h with
  | types hl =>
    apply (reads_within _ (reads_typedList Lexeme.denotes_name (by decide) (by decide)
      hgate.typing _ _ hl.names_ne_nil rest)).bind_pure fun _ _ => trivial
  | constants hl =>
    apply (reads_within _ (reads_constantList hgate.typing hl.names_ne_nil rest)).bind_pure
      fun _ _ => trivial
  | @predicates ps hps =>
    refine ReadsTo.bind_pure (reads_repeated _ _ ?_ ?_ rest) fun _ _ => trivial
    · intro p _
      exact ⟨_, _, rfl, nofun⟩
    · intro p hp rest
      apply (reads_expect (kind_of_lexeme rfl) _ _).bind_cons
      intro _ _
      apply (reads_expect (kind_of_lexeme rfl) _ _).bind_cons
      intro t ht
      rw [WrittenPredicate.events, ← Lexeme.denotes_name.name_eq ht]
      apply reads_within
      apply reads_within
      apply ReadsTo.named_bind
      apply reads_variableList hgate.typing (hps p hp).names_ne_nil
  | action hname hl hf hg =>
    rw [Section.hasGrammar, Bool.and_eq_true, Option.all_eq_true, Option.all_eq_true] at hs
    apply (reads_action hgate hname hl hf hg hs.1 hs.2 rest).bind_pure fun _ _ => trivial
  | objects hl =>
    apply (reads_within _ (reads_constantList hgate.typing hl.names_ne_nil rest)).bind_pure
      fun _ _ => trivial
  | @init ws hws =>
    rw [Section.hasGrammar, List.all_map, List.all_eq_true] at hs
    refine ReadsTo.bind_pure (reads_repeated _ _ ?_ ?_ rest) fun _ _ => trivial
    · intro w hw
      obtain ⟨l, tail, hls, -⟩ := (hws w hw).exists_lexemes
      exact ⟨_, l :: tail, hls, nofun⟩
    · intro w hw
      apply reads_initLiteral (hws w hw) (hs w hw)
  | goal h =>
    rw [Section.hasGrammar, Option.all_eq_true] at hs
    refine ReadsTo.bind_pure (reads_within _ (ReadsTo.bind_closing ?_)) fun _ _ => trivial
    apply reads_orEmpty h
    intro g hg _ _ hwritten
    apply reads_goal hgate hwritten (hs g hg)

/-- What is written is read: a section declares what it is written to declare, with the default
type filled in, and the tokens behind it remain. -/
theorem read_of_written (hgate : gate.AllowsFormulas) (h : s.Written name k ls es)
    (hs : s.hasGrammar) (T : Option Ty) {tokens : List Token} {rest : List Lexeme}
    (htokens : tokens.map Token.lexeme = ls ++ rest)
    (hname : k = .action → name ∈ tokens.head?) :
  ∃ c, k.read gate T tokens = .ok (s.withDefault T, c) ∧ c.lexemes = rest
  := by
  obtain ⟨note, hnote, hresult⟩ := h.report.notes hs T
  obtain ⟨value, c, hok, -, hrest, hes, hneed⟩ :=
    reads_reader hgate h hs rest (.start tokens) htokens
  obtain ⟨name', hname', rfl⟩ := exists_of_reader hok
  have hsame : k.result name' = k.result name := by
    cases k with
    | action =>
      have hhead : some name' = some name := (hname' rfl).1.symm.trans (hname rfl)
      rw [Option.some.inj hhead]
    | _ => rfl
  rw [← hes] at hnote
  refine ⟨c, ?_, hrest⟩
  rw [read, draft_ok hok hneed hnote, ← hresult, ← hsame]
  rfl

end SectionKind

end PlanLang
