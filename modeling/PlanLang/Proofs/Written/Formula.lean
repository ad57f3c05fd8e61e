import PlanLang.Proofs.Formula.Grammar
import PlanLang.Proofs.Written

/-!
# Formulas as they are written

A formula is written as a list that begins with the word or the sign of its construct, and an atom
as its name and its terms.  Names can be written in any case, and the variables that are bound as
any typed list of theirs.
-/

namespace PlanLang

/-! ### Terms -/

/-- A term as it is written. -/
inductive WrittenTerm where
  | var (name : String)
  | const (name : String)
deriving DecidableEq

namespace WrittenTerm

/-- The term that is written. -/
def term : WrittenTerm → Term
  | var name => .var ⟨name.toLower, none⟩
  | const name => .const ⟨name.toLower, none⟩

/-- The lexeme of a term. -/
def lexeme : WrittenTerm → Lexeme
  | var name => .var name
  | const name => .name name

/-- The event for a term. -/
def event : WrittenTerm → Event
  | var name => .name .variable name.toLower
  | const name => .name .constant name.toLower

/-- The name that is written. -/
def name : WrittenTerm → String
  | var name | const name => name

theorem report {t : WrittenTerm} (h : isWord t.name) :
  t.term.Report t.event
  := by
  cases t with
  | var name =>
    have hname : Variable.ofName name.toLower = ⟨name.toLower, none⟩ :=
      Variable.ofName_stored (isStoredName_of_isLowerWord (isLowerWord_toLower h))
    rw [term, ← hname]
    exact .var name.toLower
  | const name =>
    have hname : Constant.ofName name.toLower = ⟨name.toLower, none⟩ := by
      rw [Constant.ofName, toLower_toLower]
    rw [term, ← hname]
    exact .const name.toLower

end WrittenTerm

/-- A term written in its canonical form. -/
def Term.written : Term → WrittenTerm
  | .var v => .var v.name
  | .const c => .const c.name

theorem Term.written_of_isBare {t : Term} (h : t.isBare isLowerWord) :
  isWord t.written.name ∧ t.written.term = t ∧ t.written.lexeme = t.lexeme ∧
    t.written.event = t.event
  := by
  cases t with
  | var v | const v =>
    obtain ⟨name, ty⟩ := v
    rw [isBare, Bool.and_eq_true, Option.isNone_iff_eq_none] at h
    obtain ⟨rfl, hword⟩ := h
    have hlower : name.toLower = name := toLower_of_isLowerWord hword
    refine ⟨isWord_of_isLowerWord hword, ?_, rfl, ?_⟩
    · rw [written, WrittenTerm.term, hlower]
    · rw [written, WrittenTerm.event, hlower]
      rfl

/-! ### Formulas -/

namespace Formula

/-- A formula, the lexemes that it is written as, and the events that report it. -/
structure Writing where
  formula : Formula
  lexemes : List Lexeme
  events : List Event

/-- The formula is written as the lexemes, and what is written is reported by the events. -/
inductive Written : Formula → List Lexeme → List Event → Prop where
  | atom (name : String) {ts : List WrittenTerm} (hts : ∀ t ∈ ts, isWord t.name) :
    Written (.atom ⟨name.toLower, ts.map WrittenTerm.term⟩)
      (.opening :: .name name :: (ts.map WrittenTerm.lexeme ++ [.closing]))
      (Event.within (.shape .atom) (.name .predicate name.toLower :: ts.map WrittenTerm.event))
  | negation {f : Formula} {ls : List Lexeme} {es : List Event} (h : Written f ls es) :
    Written (.negation f) (.opening :: .name "not" :: (ls ++ [.closing]))
      (Event.within (.shape .negation) es)
  | conjunction {ws : List Writing} (hws : ∀ w ∈ ws, Written w.formula w.lexemes w.events) :
    Written (.conjunction (ws.map Writing.formula))
      (.opening :: .name "and" :: (ws.flatMap Writing.lexemes ++ [.closing]))
      (Event.within (.shape .conjunction) (ws.flatMap Writing.events))
  | equality {l r : WrittenTerm} (hl : isWord l.name) (hr : isWord r.name) :
    Written (.equality l.term r.term) [.opening, .equals, l.lexeme, r.lexeme, .closing]
      (Event.within (.shape .equality) [l.event, r.event])
  | universal {l : WrittenList} (hl : l.IsProper) {f : Formula} {ls : List Lexeme}
    {es : List Event} (h : Written f ls es) :
    Written (.universal (l.vars none) f)
      (.opening :: .name "forall" :: .opening ::
        (l.lexemes .var ++ .closing :: (ls ++ [.closing])))
      (Event.within (.shape .universal) (l.events .variable .typedList ++ es))
  | conditional {c e : Formula} {ls ms : List Lexeme} {es es' : List Event} (hc : Written c ls es)
    (he : Written e ms es') :
    Written (.conditional c e) (.opening :: .name "when" :: (ls ++ (ms ++ [.closing])))
      (Event.within (.shape .conditional) (es ++ es'))

theorem report_atom (name : String) {ts : List WrittenTerm} (hts : ∀ t ∈ ts, isWord t.name) :
  Report (.atom ⟨name.toLower, ts.map WrittenTerm.term⟩)
    (Event.within (.shape .atom) (.name .predicate name.toLower :: ts.map WrittenTerm.event))
  := by
  have hname : Atom.ofName name.toLower (ts.map WrittenTerm.term)
      = ⟨name.toLower, ts.map WrittenTerm.term⟩ := by
    rw [Atom.ofName, toLower_toLower]
  rw [← hname]
  apply Report.atom
  rw [List.forall₂_map_left_iff, List.forall₂_map_right_iff, List.forall₂_same]
  intro t ht
  exact WrittenTerm.report (hts t ht)

theorem reportAll_writings {ws : List Writing} (h : ∀ w ∈ ws, w.formula.Report w.events) :
  ReportAll (ws.map Writing.formula) (ws.flatMap Writing.events)
  := by
  induction ws with
  | nil => exact .nil
  | cons w ws ih =>
    rw [List.forall_mem_cons] at h
    rw [List.flatMap_cons]
    exact .cons h.1 (ih h.2)

/-- What is written is reported. -/
theorem Written.report {f : Formula} {ls : List Lexeme} {es : List Event} (h : Written f ls es) :
  f.Report es
  := by
  induction h with
  | atom name hts => exact report_atom name hts
  | negation _ ih => exact .negation ih
  | conjunction _ ih => exact .conjunction (reportAll_writings ih)
  | equality hl hr => exact .equality (WrittenTerm.report hl) (WrittenTerm.report hr)
  | @universal l hl f ls es _ ih =>
    rw [← WrittenList.toVariables_typedList hl.isWord]
    exact .universal (WrittenList.report _ _ hl.names_ne_nil) ih
  | conditional _ _ ihc ihe => exact .conditional ihc ihe

/-- What is written is a list that is not empty. -/
theorem Written.exists_lexemes {f : Formula} {ls : List Lexeme} {es : List Event}
    (h : Written f ls es) :
  ∃ l tail, ls = .opening :: l :: tail ∧ l.kind ≠ .closing
  := by
  cases h <;> exact ⟨_, _, rfl, nofun⟩

/-! ### The canonical form -/

theorem lexemesAll_eq (fs : List Formula) :
  lexemesAll fs = fs.flatMap lexemes
  := by
  induction fs with
  | nil => rfl
  | cons f fs ih => rw [lexemesAll, ih, List.flatMap_cons]

theorem eventsAll_eq (fs : List Formula) :
  eventsAll fs = fs.flatMap events
  := by
  induction fs with
  | nil => rfl
  | cons f fs ih => rw [eventsAll, ih, List.flatMap_cons]

/-- A formula written in its canonical form. -/
def writing (f : Formula) : Writing :=
  ⟨f, f.lexemes, f.events⟩

mutual

/-- A formula whose names are words in lower case is written in its canonical form. -/
theorem written_of_isRegular {q : String → Bool} :
  ∀ {f : Formula}, f.isRegular isLowerWord q → Written f f.lexemes f.events
  | .atom a, h => by
      rw [isRegular, Bool.and_eq_true, List.all_eq_true] at h
      obtain ⟨hname, hterms⟩ := h
      have hwritten := fun t ht => Term.written_of_isBare (hterms t ht)
      have hwords : ∀ t ∈ a.terms.map Term.written, isWord t.name := by
        rw [List.forall_mem_map]
        exact fun t ht => (hwritten t ht).1
      have hterm : a.terms.map (WrittenTerm.term ∘ Term.written) = a.terms :=
        (List.map_congr_left fun t ht => (hwritten t ht).2.1).trans a.terms.map_id'
      have hlexeme : a.terms.map (WrittenTerm.lexeme ∘ Term.written) = a.terms.map Term.lexeme :=
        List.map_congr_left fun t ht => (hwritten t ht).2.2.1
      have hevent : a.terms.map (WrittenTerm.event ∘ Term.written) = a.terms.map Term.event :=
        List.map_congr_left fun t ht => (hwritten t ht).2.2.2
      have hatom := Written.atom a.name hwords
      rw [toLower_of_isLowerWord hname, List.map_map, List.map_map, List.map_map, hterm, hlexeme,
        hevent] at hatom
      rw [lexemes, events]
      exact hatom
  | .negation f, h => by
      rw [lexemes, events]
      exact .negation (written_of_isRegular (f := f) h)
  | .conjunction fs, h => by
      have hws : ∀ w ∈ fs.map writing, Written w.formula w.lexemes w.events := by
        rw [List.forall_mem_map]
        exact written_of_areRegular h
      have hconjunction := Written.conjunction hws
      rw [List.map_map, List.flatMap_map, List.flatMap_map] at hconjunction
      rw [lexemes, events, lexemesAll_eq, eventsAll_eq]
      simpa [Function.comp_def, writing] using hconjunction
  | .equality l r, h => by
      rw [isRegular, Bool.and_eq_true] at h
      obtain ⟨hl, hlterm, hllexeme, hlevent⟩ := Term.written_of_isBare h.1
      obtain ⟨hr, hrterm, hrlexeme, hrevent⟩ := Term.written_of_isBare h.2
      have hequality := Written.equality hl hr
      rw [hlterm, hrterm, hllexeme, hrlexeme, hlevent, hrevent] at hequality
      exact hequality
  | .universal vs f, h => by
      rw [isRegular, Bool.and_eq_true] at h
      obtain ⟨hproper, hvars, hevents⟩ := TypedList.written_ofVariables h.1
      have huniversal := Written.universal hproper (written_of_isRegular h.2)
      rw [hvars, hevents, TypedList.lexemes_written] at huniversal
      exact huniversal
  | .conditional c e, h => by
      rw [isRegular, Bool.and_eq_true] at h
      exact .conditional (written_of_isRegular h.1) (written_of_isRegular h.2)

theorem written_of_areRegular {q : String → Bool} :
  ∀ {fs : List Formula}, areRegular isLowerWord q fs → ∀ f ∈ fs, Written f f.lexemes f.events
  | [], _, f, hf => nomatch hf
  | g :: gs, h, f, hf => by
      rw [areRegular, Bool.and_eq_true] at h
      rcases List.mem_cons.mp hf with heq | hf
      · rw [heq]
        exact written_of_isRegular h.1
      · exact written_of_areRegular h.2 f hf

end

end Formula

end PlanLang
