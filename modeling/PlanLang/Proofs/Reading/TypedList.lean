import PlanLang.Proofs.Reading
import PlanLang.Proofs.Written

/-!
# Reading types and typed lists

In front of the lexemes of a type or a typed list, the readers of types and typed lists read
these lexemes and report the type or the list.
-/

namespace PlanLang

/-! ### The names of tokens -/

/-- The lexemes that `item` gives to names are of one kind, and the tokens with such a lexeme
stand for its name in lower case. -/
structure Lexeme.Denotes (kind : TokenKind) (item : String → Lexeme) : Prop where
  kind_eq : ∀ name, (item name).kind = kind
  name_eq : ∀ {name : String} {t : Token}, t.lexeme = item name → t.name = name.toLower

theorem Lexeme.denotes_name :
  Denotes .name name
  where
  kind_eq _ := rfl
  name_eq := by
    intro name t ht
    have hkind : t.kind = .name := congrArg Lexeme.kind ht
    have htext : t.text = name := congrArg Lexeme.text ht
    rw [Token.name, if_neg (by simp [hkind]), htext]

theorem Lexeme.denotes_var :
  Denotes .var var
  where
  kind_eq _ := rfl
  name_eq := by
    intro name t ht
    have hkind : t.kind = .var := congrArg Lexeme.kind ht
    have htext : t.text = "?" ++ name := congrArg Lexeme.text ht
    rw [Token.name, if_pos hkind, htext, String.toList_append]
    exact congrArg String.toLower String.ofList_toList

namespace Reader

variable {gate : Gate}

/-- A name that is expected is read and reported. -/
theorem reads_expect_named {kind : TokenKind} {item : String → Lexeme}
    (hitem : Lexeme.Denotes kind item) (name : String) (r : Role) (options : List String)
    (rest : List Lexeme) :
  (do named r (← expect (fun t => t.kind = kind) options)).Reads gate [item name] rest
    [.name r name.toLower]
  := by
  apply (reads_expect (kind_of_lexeme (hitem.kind_eq name)) options rest).bind_cons
  intro t ht
  rw [← hitem.name_eq ht]
  apply reads_named

/-- Names are read one by one. -/
theorem reads_repeated_named {kind : TokenKind} {item : String → Lexeme}
    (hitem : Lexeme.Denotes kind item) (hkind : kind ≠ .closing) (names : List String) (r : Role)
    (options : List String) (rest : List Lexeme) :
  (repeated do named r (← expect (fun t => t.kind = kind) options)).Reads gate
    (names.map item ++ [.closing]) rest (names.map fun name => .name r name.toLower)
  := by
  rw [List.map_eq_flatMap, List.map_eq_flatMap]
  apply reads_repeated
  · intro name _
    exact ⟨item name, [], rfl, by rwa [hitem.kind_eq]⟩
  · intro name _ rest
    apply reads_expect_named hitem

/-- A type is read from its lexemes. -/
theorem reads_type (t : WrittenType) (rest : List Lexeme) :
  typeAnnotation.Reads gate t.lexemes rest t.events
  := by
  cases t with
  | primitive name =>
    rw [WrittenType.lexemes, WrittenType.events]
    apply (reads_accept (kind_of_lexeme rfl) _).bind_cons
    rintro _ ⟨s, rfl, hs⟩
    rw [← Lexeme.denotes_name.name_eq hs]
    apply reads_named
  | either first others =>
    apply (reads_accept_none (kind_ne_of_lexeme (by decide)) _).bind_nil
    rintro _ rfl
    apply (reads_expect (kind_of_lexeme rfl) _ _).bind_cons
    intro _ _
    apply (reads_expect (isName_of_lexeme (by decide +kernel)) _ _).bind_cons
    intro _ _
    apply reads_within
    apply (reads_expect (kind_of_lexeme rfl) _ _).bind_cons
    intro s hs
    rw [List.map_cons, ← Lexeme.denotes_name.name_eq hs]
    apply ReadsTo.named_bind
    apply reads_repeated_named Lexeme.denotes_name (by decide)

/-! ### Groups -/

/-- A run of names is read up to a lexeme of another kind. -/
theorem reads_run {kind : TokenKind} {item : String → Lexeme} (hitem : Lexeme.Denotes kind item)
    (names : List String) {l : Lexeme} (hl : l.kind ≠ kind) (rest : List Lexeme) :
  (run kind).ReadsTo gate (names.map item) (l :: rest) []
    fun ts => ts.map Token.lexeme = names.map item
  := by
  apply (silent_run kind).readsTo
  rintro ⟨_, last⟩ hc
  obtain ⟨ts, _, rfl, hts, hus⟩ := List.map_eq_append_iff.mp hc
  obtain ⟨u, us, rfl, hu, hus⟩ := List.map_eq_cons_iff.mp hus
  have hkind : ∀ t ∈ ts, decide (t.kind = kind) = true := by
    intro t ht
    have hmem : t.lexeme ∈ names.map item := hts ▸ List.mem_map_of_mem ht
    obtain ⟨n, -, hn⟩ := List.mem_map.mp hmem
    apply kind_of_lexeme (hitem.kind_eq n) t hn.symm
  have hother : decide (u.kind = kind) = false := kind_ne_of_lexeme hl u hu
  have htake : (ts ++ u :: us).takeWhile (fun t => decide (t.kind = kind)) = ts := by
    rw [List.takeWhile_append_of_pos hkind, List.takeWhile_cons, hother]
    apply List.append_nil
  have hdrop : (ts ++ u :: us).dropWhile (fun t => decide (t.kind = kind)) = u :: us := by
    rw [List.dropWhile_append_of_pos hkind, List.dropWhile_cons, hother]
    rfl
  use ts, ⟨u :: us, (ts.getLast?.map Token.position).getD last⟩
  refine ⟨?_, hts, congrArg₂ List.cons hu hus⟩
  simp only [run, htake, hdrop]

/-- Reporting the names of tokens. -/
theorem reads_allNamed {kind : TokenKind} {item : String → Lexeme}
    (hitem : Lexeme.Denotes kind item) (r : Role) {names : List String} {ts : List Token}
    (hts : ts.map Token.lexeme = names.map item) (rest : List Lexeme) :
  (allNamed r ts).Reads gate [] rest (names.map fun name => .name r name.toLower)
  := by
  induction names generalizing ts with
  | nil =>
    obtain rfl : ts = [] := List.map_eq_nil_iff.mp hts
    apply reads_pure trivial
  | cons name names ih =>
    obtain ⟨t, ts, rfl, ht, hts⟩ := List.map_eq_cons_iff.mp hts
    rw [List.map_cons, ← hitem.name_eq ht]
    apply ReadsTo.named_bind
    apply ih hts

section

variable {kind : TokenKind} {item : String → Lexeme} (hitem : Lexeme.Denotes kind item)
include hitem

/-- A group of names is read with its type. -/
theorem reads_typedGroup (hkind : kind ≠ .dash) (htyping : gate.allows .typing) (r : Role)
    (g : Construct) {names : List String} (hne : names ≠ []) (t : WrittenType)
    (rest : List Lexeme) :
  (typedGroup kind r g).Reads gate (names.map item ++ .dash :: t.lexemes) rest
    (Event.within g (names.map (fun name => .name r name.toLower) ++ t.events))
  := by
  refine (reads_run hitem names (Ne.symm hkind) _).bind_silent ?_
  intro ts hts
  cases ts with
  | nil => exact absurd (List.map_eq_nil_iff.mp hts.symm) hne
  | cons s ts =>
    apply ReadsTo.ite_found (kind_of_lexeme rfl)
    apply reads_within
    apply (reads_allNamed hitem r hts _).bind
    intro _ _
    apply (reads_need htyping _ _).bind_nil
    intro _ _
    apply reads_type

/-- The names at the end of a list are read without a type. -/
theorem reads_typedGroup_closing (hkind : kind ≠ .closing) (r : Role) (g : Construct)
    {names : List String} (hne : names ≠ []) (rest : List Lexeme) :
  (typedGroup kind r g).Reads gate (names.map item) (.closing :: rest)
    (names.map fun name => .name r name.toLower)
  := by
  rw [← List.append_nil (names.map item)]
  refine (reads_run hitem names (Ne.symm hkind) _).bind_silent ?_
  intro ts hts
  cases ts with
  | nil => exact absurd (List.map_eq_nil_iff.mp hts.symm) hne
  | cons s ts =>
    apply ReadsTo.ite_not_found rfl (kind_ne_of_lexeme (by decide))
    apply reads_allNamed hitem r hts

/-- A typed list is read up to the parenthesis that closes it. -/
theorem reads_typedList (hdash : kind ≠ .dash) (hclosing : kind ≠ .closing)
    (htyping : gate.allows .typing) (r : Role) (g : Construct) {l : WrittenList}
    (hl : ∀ group ∈ l.groups, group.1 ≠ []) (rest : List Lexeme) :
  (typedList kind r g).Reads gate (l.lexemes item ++ [.closing]) rest (l.events r g)
  := by
  apply reads_untilClosing
  intro fuel hfuel
  obtain ⟨groups, trailing⟩ := l
  induction groups generalizing fuel with
  | nil =>
    cases trailing with
    | nil =>
      apply reads_untilClosingWithin_closing _ _ trivial
      apply Nat.lt_of_lt_of_le Nat.zero_lt_one hfuel
    | cons name names =>
      obtain ⟨fuel, rfl⟩ : ∃ m, fuel = m + 2 := by
        apply Nat.exists_eq_add_of_le'
        simp only [WrittenList.lexemes, List.flatMap_nil, List.nil_append, List.length_append,
          List.length_map, List.length_cons, List.length_nil] at hfuel
        omega
      rw [WrittenList.events, List.flatMap_nil, List.nil_append,
        ← List.append_nil (List.map _ (name :: names))]
      apply ReadsTo.untilClosingWithin (hitem.kind_eq name ▸ hclosing)
      · apply reads_typedGroup_closing hitem hclosing r g (List.cons_ne_nil name names)
      · intro _ _
        apply reads_untilClosingWithin_closing _ (Nat.succ_pos fuel) trivial
  | cons group groups ih =>
    obtain ⟨names, t⟩ := group
    rw [List.forall_mem_cons] at hl
    obtain ⟨hne, hgroups⟩ := hl
    obtain ⟨n, ns, rfl⟩ := List.exists_cons_of_ne_nil hne
    rw [WrittenList.lexemes_cons, List.append_assoc, List.length_append] at hfuel
    obtain ⟨fuel, rfl⟩ : ∃ m, fuel = m + 1 := by
      apply Nat.exists_eq_add_of_le'
      rw [List.length_append, List.length_map, List.length_cons] at hfuel
      omega
    rw [WrittenList.lexemes_cons, WrittenList.events_cons, List.append_assoc]
    apply ReadsTo.untilClosingWithin (hitem.kind_eq n ▸ hclosing)
    · apply reads_typedGroup hitem hdash htyping r g hne
    · intro _ _
      apply ih _ hgroups
      rw [List.length_append, List.length_map, List.length_cons] at hfuel
      omega

end

/-- Variables are read from their typed list. -/
theorem reads_variableList (htyping : gate.allows .typing) {l : WrittenList}
    (hl : ∀ group ∈ l.groups, group.1 ≠ []) (rest : List Lexeme) :
  variableList.Reads gate (l.lexemes .var ++ [.closing]) rest (l.events .variable .typedList)
  := reads_typedList Lexeme.denotes_var (by decide) (by decide) htyping _ _ hl rest

/-- Constants are read from their typed list. -/
theorem reads_constantList (htyping : gate.allows .typing) {l : WrittenList}
    (hl : ∀ group ∈ l.groups, group.1 ≠ []) (rest : List Lexeme) :
  constantList.Reads gate (l.lexemes .name ++ [.closing]) rest (l.events .constant .typedList)
  := reads_typedList Lexeme.denotes_name (by decide) (by decide) htyping _ _ hl rest

end Reader

end PlanLang
