import PlanLang.Proofs.Formula.Needs
import PlanLang.Proofs.Reader.Emission
import PlanLang.Reader.TypedList

/-!
# The reports of types and typed lists

The reader of types reports types, and the reader of typed lists reports typed lists: after names
without a type nothing but the end of the list can be read, so these names come last.  It notes
that a requirement is needed if and only if some of the names have a type.
-/

open Computability

namespace PlanLang

/-! ### Events and needs among steps -/

/-- The event of a step, unless the step notes that a requirement is needed. -/
def Step.event? : Step → Option Event
  | .event e => some e
  | .need _ _ => none

/-- The events among steps. -/
def Step.events (ss : List Step) : List Event :=
  ss.filterMap event?

/-- The requirements that steps need. -/
def Step.needs : List Step → Finset Requirement
  | [] => ∅
  | .event _ :: ss => needs ss
  | .need r _ :: ss => insert r (needs ss)

namespace Step

@[simp]
theorem events_nil :
  events [] = []
  := rfl

@[simp]
theorem events_event (e : Event) (ss : List Step) :
  events (.event e :: ss) = e :: events ss
  := rfl

@[simp]
theorem events_need (r : Requirement) (what : String) (ss : List Step) :
  events (.need r what :: ss) = events ss
  := rfl

@[simp]
theorem events_append (ss ss' : List Step) :
  events (ss ++ ss') = events ss ++ events ss'
  := List.filterMap_append

@[simp]
theorem events_map_event (es : List Event) :
  events (es.map .event) = es
  := by
  induction es with
  | nil => rfl
  | cons e es ih => rw [List.map_cons, events_event, ih]

/-- The events between the entering and the leaving of a construct are within it. -/
theorem events_enclosed (c : Construct) (ss : List Step) :
  events (.event (.enter c) :: (ss ++ [.event (.leave c)])) = Event.within c (events ss)
  := by
  rw [events_event, events_append, Event.within]
  rfl

@[simp]
theorem needs_nil :
  needs [] = ∅
  := rfl

@[simp]
theorem needs_event (e : Event) (ss : List Step) :
  needs (.event e :: ss) = needs ss
  := rfl

@[simp]
theorem needs_need (r : Requirement) (what : String) (ss : List Step) :
  needs (.need r what :: ss) = insert r (needs ss)
  := rfl

@[simp]
theorem needs_append (ss ss' : List Step) :
  needs (ss ++ ss') = needs ss ∪ needs ss'
  := by
  induction ss with
  | nil => rw [List.nil_append, needs_nil, Finset.empty_union]
  | cons s ss ih =>
    cases s with
    | event e => rw [List.cons_append, needs_event, needs_event, ih]
    | need r what => rw [List.cons_append, needs_need, needs_need, ih, Finset.insert_union]

@[simp]
theorem needs_map_event (es : List Event) :
  needs (es.map .event) = ∅
  := by
  induction es with
  | nil => rfl
  | cons e es ih => rw [List.map_cons, needs_event, ih]

/-- Nothing is needed for the entering and the leaving of a construct. -/
theorem needs_enclosed (c : Construct) (ss : List Step) :
  needs (.event (.enter c) :: (ss ++ [.event (.leave c)])) = needs ss
  := by
  rw [needs_event, needs_append, needs_event, needs_nil, Finset.union_empty]

/-- A requirement is among those needed if it is needed at some step. -/
theorem mem_needs {r : Requirement} {ss : List Step} :
  r ∈ needs ss ↔ ∃ what, .need r what ∈ ss
  := by
  induction ss with
  | nil => simp
  | cons s ss ih =>
    cases s with
    | event e => simp [ih]
    | need q what => simp [ih, exists_or]

end Step

namespace Reader

/-! ### Names -/

/-- The reports of a single name. -/
def nameReports (r : Role) : Language Step :=
  {ss | ∃ name, ss = [.event (.name r name)]}

/-- The steps that report names. -/
def nameSteps (r : Role) (names : List String) : List Step :=
  names.map fun name => .event (.name r name)

@[simp]
theorem events_nameSteps (r : Role) (names : List String) :
  Step.events (nameSteps r names) = names.map (.name r)
  := by
  rw [nameSteps, ← Function.comp_def Step.event, ← List.map_map, Step.events_map_event]

@[simp]
theorem needs_nameSteps (r : Role) (names : List String) :
  Step.needs (nameSteps r names) = ∅
  := by
  rw [nameSteps, ← Function.comp_def Step.event, ← List.map_map, Step.needs_map_event]

/-- The reports of any number of names. -/
def namesReports (r : Role) : Language Step :=
  {ss | ∃ names, ss = nameSteps r names}

theorem kstar_nameReports_le (r : Role) :
  (nameReports r)∗ ≤ namesReports r
  := by
  apply kstar_le_of_mul_le_right
  · rintro ss rfl
    exact ⟨[], rfl⟩
  · rintro _ ⟨_, ⟨name, rfl⟩, _, ⟨names, rfl⟩, rfl⟩
    exact ⟨name :: names, rfl⟩

theorem emits_named (r : Role) (t : Token) :
  (named r t).Emits (only [.event (.name r t.name)])
  := emits_report _

/-- A token that is expected and named reports a name. -/
theorem emits_expect_named (p : Token → Bool) (options : List String) (r : Role) :
  (do named r (← expect p options)).Emits (nameReports r)
  := by
  intro c
  apply (silent_expect p options).bindAt
  intro t c' _
  apply (emits_named r t c').mono
  rintro _ rfl
  exact ⟨t.name, rfl⟩

/-! ### Types and typed lists -/

/-- The reports of types, which need nothing. -/
def typeReports : Language Step :=
  {ss | (∃ t : Ty, t.Report (Step.events ss)) ∧ Step.needs ss = ∅}

/-- The reports of typed lists. -/
def listReports (r : Role) (g : Construct) : Language Step :=
  {ss | ∃ l : TypedList, l.Report r g (Step.events ss) ∧ Step.needs ss = l.needs}

theorem nil_mem_listReports (r : Role) (g : Construct) :
  [] ∈ listReports r g
  := ⟨⟨[], []⟩, .trailing [], rfl⟩

theorem emits_type :
  typeAnnotation.Emits typeReports
  := by
  intro c
  apply (silent_accept _).bindAt
  intro o c _
  cases o with
  | some t =>
    apply (emits_named .type t c).mono
    rintro _ rfl
    exact ⟨⟨_, .primitive t.name⟩, rfl⟩
  | none =>
    apply (silent_expect _ _).bindAt
    intro _ c _
    apply (silent_expect _ _).bindAt
    intro _ c _
    refine (emits_within (L := nameReports .type * namesReports .type) _ ?_ ?_ c).mono ?_
    · intro c
      apply (silent_expect _ _).bindAt
      intro t c _
      apply EmitsAt.bind
      · apply (emits_named .type t c).mono
        rintro _ rfl
        exact ⟨t.name, rfl⟩
      · intro _ c _
        apply (emits_repeated (emits_expect_named _ _ .type) c).mono
        apply kstar_nameReports_le
      · exact ⟨[], [], rfl⟩
    · exact ⟨_, Language.append_mem_mul ⟨"object", rfl⟩ ⟨[], rfl⟩⟩
    · rintro _ ⟨_, ⟨_, ⟨name, rfl⟩, _, ⟨names, rfl⟩, rfl⟩, rfl⟩
      have h : Ty.either? (name :: names) = some (names.foldl Ty.insert (.primitive name)) := rfl
      constructor
      · use names.foldl Ty.insert (.primitive name)
        rw [Step.events_enclosed]
        have hreport := Ty.Report.either h
        rwa [← events_nameSteps] at hreport
      · rw [Step.needs_enclosed]
        exact needs_nameSteps .type (name :: names)

theorem emits_allNamed (r : Role) (ts : List Token) :
  (allNamed r ts).Emits (only (nameSteps r (ts.map Token.name)))
  := by
  induction ts with
  | nil =>
    intro c
    apply (silent_pure ()).emits
  | cons t ts ih =>
    intro c
    apply (EmitsAt.bind (emits_named r t c) (fun _ c _ => ih c) ⟨_, rfl⟩).mono
    rintro _ ⟨_, rfl, _, rfl, rfl⟩
    rfl

/-- Reporting names reads nothing. -/
theorem allNamed_cursor (r : Role) (ts : List Token) (c : Cursor) :
  (allNamed r ts c).2 = .ok ((), c)
  := by
  induction ts with
  | nil => rfl
  | cons t ts ih =>
    rw [allNamed, (bind_of_ok (r := named r t) (a := ()) _ rfl).2]
    exact ih

/-- Where no token is found nothing is read. -/
theorem cursor_of_found {p : Token → Bool} {c c' : Cursor} (h : (found p c).2 = .ok (false, c')) :
  c' = c
  := by
  obtain ⟨rest, last⟩ := c
  cases rest with
  | nil =>
    cases h
    rfl
  | cons t ts =>
    by_cases ht : p t
    · simp [found, accept, bind_apply, pure_apply, ht] at h
    · symm
      simpa [found, accept, bind_apply, pure_apply, ht] using h

/-- After a run of tokens of one kind the next token is of another kind. -/
theorem head?_of_run {kind : TokenKind} {c c' : Cursor} {ts : List Token}
    (h : (run kind c).2 = .ok (ts, c')) :
  ∀ t ∈ c'.rest.head?, t.kind ≠ kind
  := by
  cases h
  intro t ht
  have hnot := List.head?_dropWhile_not (fun t : Token => decide (t.kind = kind)) c.rest
  rw [ht] at hnot
  simpa using hnot

/-- A group of a typed list has to begin with a name of its kind. -/
theorem typedGroup_of_head? {kind : TokenKind} (r : Role) (g : Construct) {c : Cursor}
    (h : ∀ t ∈ c.rest.head?, t.kind ≠ kind) :
  ∃ e, e.isTextual ∧ typedGroup kind r g c = ([], .error e)
  := by
  obtain ⟨rest, last⟩ := c
  cases rest with
  | nil => exact ⟨_, rfl, rfl⟩
  | cons t ts =>
    have ht : ¬ (t.kind = kind) := by simpa using h
    simp [typedGroup, run, bind_apply, expect, ht, SyntaxError.isTextual]

/-- The reader of typed lists reports nothing more where no name of its kind is next. -/
theorem emitsAt_typedList_of_head? {kind : TokenKind} {r : Role} {g : Construct} {c : Cursor}
    (h : ∀ t ∈ c.rest.head?, t.kind ≠ kind) (n : Nat) :
  (untilClosingWithin (fun _ => typedGroup kind r g) n ()).EmitsAt c 1
  := by
  obtain ⟨e, htext, hgroup⟩ := typedGroup_of_head? r g h
  cases n with
  | zero => apply emitsAt_of_error 1 hgroup htext
  | succ n =>
    apply EmitsAt.ite_found
    · intro t ts _ _
      apply (silent_pure ()).emits
    · intro _
      have hstop : (typedGroup kind r g >>= fun s =>
          untilClosingWithin (fun _ => typedGroup kind r g) n s) c = ([], .error e) := by
        rw [bind_apply, hgroup]
      apply emitsAt_of_error 1 hstop htext

/-- The reports of groups of names with their type. -/
def groupReports (r : Role) (g : Construct) : Language Step :=
  {ss | (∃ (names : List String) (t : Ty) (es : List Event), names ≠ [] ∧ t.Report es ∧
    Step.events ss = Event.within g (names.map (.name r) ++ es)) ∧ Step.needs ss = {.typing}}

theorem emits_group (r : Role) (g : Construct) {ts : List Token} (hts : ts ≠ []) :
  (within g do allNamed r ts; need .typing "typed list"; typeAnnotation).Emits (groupReports r g)
  := by
  intro c
  have htype : ∃ ss, ss ∈ typeReports :=
    ⟨[.event (.name .type "object")], ⟨_, .primitive "object"⟩, rfl⟩
  refine (emits_within (L := only (nameSteps r (ts.map Token.name)) *
    (only [.need .typing "typed list"] * typeReports)) g ?_ ?_ c).mono ?_
  · intro c
    apply EmitsAt.bind (emits_allNamed r ts c)
    · intro _ c _
      apply (emits_type c).report_bind htype
    · obtain ⟨ss, hss⟩ := htype
      exact ⟨_, Language.append_mem_mul rfl hss⟩
  · obtain ⟨ss, hss⟩ := htype
    exact ⟨_, Language.append_mem_mul rfl (Language.append_mem_mul rfl hss)⟩
  · rintro _ ⟨_, ⟨_, rfl, _, ⟨_, rfl, ss, ⟨⟨t, ht⟩, hneeds⟩, rfl⟩, rfl⟩, rfl⟩
    constructor
    · use ts.map Token.name, t, Step.events ss
      refine ⟨by simpa using hts, ht, ?_⟩
      rw [Step.events_enclosed]
      simp
    · rw [Step.needs_enclosed]
      simp [hneeds]

/-- A group with a type in front of a typed list makes a typed list. -/
theorem groupReports_mul_listReports_le (r : Role) (g : Construct) :
  groupReports r g * listReports r g ≤ listReports r g
  := by
  rintro _ ⟨ss, ⟨⟨names, t, es, hnames, ht, hss⟩, hneeds⟩, ss', ⟨⟨groups, trailing⟩, hl, hneeds'⟩,
    rfl⟩
  refine ⟨⟨(names, t) :: groups, trailing⟩, ?_, ?_⟩
  · rw [Step.events_append, hss]
    apply TypedList.Report.group hnames ht hl
  · have hsubset : TypedList.needs ⟨groups, trailing⟩ ⊆ {.typing} := by
      rw [TypedList.needs, typingIf]
      split
      · exact Finset.Subset.refl _
      · apply Finset.empty_subset
    rw [Step.needs_append, hneeds, hneeds', Finset.union_eq_left.mpr hsubset]
    rfl

/-- A group in front of a typed list makes a typed list.  If the group has no type, then no name
of its kind comes next. -/
theorem emits_typedGroup_bind (kind : TokenKind) {r : Role} {g : Construct} {s : Reader Unit}
    (hs : s.Emits (listReports r g))
    (hend : ∀ c : Cursor, (∀ t ∈ c.rest.head?, t.kind ≠ kind) → s.EmitsAt c 1) :
  (typedGroup kind r g >>= fun _ => s).Emits (listReports r g)
  := by
  intro c
  have hlist : ∃ ss, ss ∈ listReports r g := ⟨[], nil_mem_listReports r g⟩
  rw [typedGroup, bind_assoc]
  apply (silent_run kind).bindAt
  intro ts c hrun
  cases ts with
  | nil =>
    apply ((silent_expect _ _).bind fun _ => silent_pure _).bindAt
    intro _ c _
    apply hs c
  | cons t ts =>
    simp only
    rw [bind_assoc]
    apply (silent_found _).bindAt
    intro b c' hfound
    cases b with
    | true =>
      have hgroup := emits_group r g (List.cons_ne_nil t ts)
      apply ((hgroup c').bind (fun _ c _ => hs c) hlist).mono
      apply groupReports_mul_listReports_le
    | false =>
      obtain rfl := cursor_of_found hfound
      refine ((emits_allNamed r (t :: ts) c').bind (M := 1) ?_ ⟨[], rfl⟩).mono ?_
      · intro _ c'' hok
        rw [allNamed_cursor] at hok
        cases hok
        apply hend
        apply head?_of_run hrun
      · rintro _ ⟨_, rfl, _, rfl, rfl⟩
        refine ⟨⟨[], (t :: ts).map Token.name⟩, ?_, ?_⟩
        · simp only [List.append_nil, events_nameSteps]
          apply TypedList.Report.trailing
        · simp only [List.append_nil, needs_nameSteps]
          rfl

/-- A typed list is reported group by group, and names without a type come last. -/
theorem emits_typedList (kind : TokenKind) (r : Role) (g : Construct) :
  (typedList kind r g).Emits (listReports r g)
  := by
  have hwithin : ∀ n, (untilClosingWithin (fun _ => typedGroup kind r g) n ()).Emits
      (listReports r g) := by
    intro n
    induction n with
    | zero =>
      have hpure : (pure () : Reader Unit).Emits (listReports r g) := by
        intro c
        apply ((silent_pure ()).emits c).mono
        rintro _ rfl
        apply nil_mem_listReports
      have hgroup := emits_typedGroup_bind kind hpure fun c _ => (silent_pure ()).emits c
      rwa [bind_pure_unit] at hgroup
    | succ n ih =>
      intro c
      apply EmitsAt.ite_found
      · intro t ts _ _
        apply ((silent_pure ()).emits _).mono
        rintro _ rfl
        apply nil_mem_listReports
      · intro _
        apply emits_typedGroup_bind kind ih fun c h => emitsAt_typedList_of_head? h n
  intro c
  have hc := hwithin c.rest.length c
  exact ⟨hc.whole, hc.part⟩

end Reader

end PlanLang
