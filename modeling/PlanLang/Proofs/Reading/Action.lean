import PlanLang.Proofs.Reading.Section

/-!
# Written actions

An action can be written with its precondition and its effect left out, or with an empty list in
their place.  Either way it is read as an action without them.
-/

namespace PlanLang

/-- An action as it is written.  Its precondition and its effect may be left out, and those that
are not left out may be empty lists. -/
structure WrittenAction where
  name : String
  parameters : List Variable
  precondition : Option (Option Formula)
  effect : Option (Option Formula)
deriving DecidableEq

/-! ### The text of an action -/

/-- The text of a formula, or of an empty list in place of one. -/
def Formula.textOption : Option Formula → String
  | none => "()"
  | some f => f.text

namespace WrittenAction

/-- The text of a part of an action that `word` introduces. -/
def partText (word : String) : Option (Option Formula) → String
  | none => ""
  | some f => " " ++ ":" ++ word ++ " " ++ Formula.textOption f

/-- The text of an action. -/
def text (w : WrittenAction) : String :=
  "(:action " ++ w.name ++ " :parameters (" ++ Variable.listText w.parameters ++ ")" ++
    partText "precondition" w.precondition ++ partText "effect" w.effect ++ ")"

/-- The names in the action are words in lower case, its parameters can be written as a typed
list, its precondition can be a goal, and its effect an effect. -/
def isRegular (w : WrittenAction) : Bool :=
  isLowerWord w.name && Variable.areListed isLowerWord isLowerWord w.parameters &&
    w.precondition.join.all (fun f => f.isGoal && f.isRegular isLowerWord isLowerWord) &&
    w.effect.join.all (fun f => f.isEffect && f.isRegular isLowerWord isLowerWord)

theorem forall_of_isRegular {w : WrittenAction} (h : w.isRegular) :
  isLowerWord w.name ∧ Variable.areListed isLowerWord isLowerWord w.parameters ∧
    (∀ f ∈ w.precondition.join, f.isGoal ∧ f.isRegular isLowerWord isLowerWord) ∧
    ∀ f ∈ w.effect.join, f.isEffect ∧ f.isRegular isLowerWord isLowerWord
  := by
  simp only [isRegular, Bool.and_eq_true, Option.all_eq_true] at h
  obtain ⟨⟨⟨hname, hparameters⟩, hprecondition⟩, heffect⟩ := h
  exact ⟨hname, hparameters, hprecondition, heffect⟩

/-! ### The lexemes of an action -/

/-- The lexemes of a part of an action. -/
def partLexemes (word : String) : Option (Option Formula) → List Lexeme
  | none => []
  | some f => .keyword word :: Formula.lexemesOption f

/-- The lexemes of an action after its keyword, up to its last parenthesis. -/
def contents (w : WrittenAction) : List Lexeme :=
  .name w.name :: .keyword "parameters" :: .opening ::
    ((TypedList.ofVariables w.parameters).lexemes .var ++ .closing ::
      (partLexemes "precondition" w.precondition ++ partLexemes "effect" w.effect))

end WrittenAction

/-! ### Spelling -/

theorem Formula.spells_textOption {f : Option Formula} (h : ∀ g ∈ f, g.isRegular isWord isWord) :
  Spells (textOption f) (lexemesOption f)
  := by
  cases f with
  | none => exact Spells.opening Spells.closing
  | some g => exact spells_text (h g rfl)

namespace WrittenAction

theorem isApart_partText (word : String) (f : Option (Option Formula)) :
  isApart (partText word f)
  := by
  cases f with
  | none => rfl
  | some f =>
    simp only [partText, String.append_assoc]
    apply isApart_append rfl (by decide)

theorem spells_partText {word : String} (hword : isWord word) {f : Option (Option Formula)}
    (h : ∀ g ∈ f.join, g.isRegular isWord isWord) :
  Spells (partText word f) (partLexemes word f)
  := by
  cases f with
  | none => exact Spells.empty
  | some f =>
    have hformula := (Formula.spells_textOption h).blank
    have hpart := ((Spells.keyword hword).append hformula (isApart_append rfl (by decide) _)).blank
    simp only [← String.append_assoc] at hpart
    exact hpart

/-- The text of an action whose names are words is cut into its lexemes. -/
theorem spells_text {w : WrittenAction} (hname : isWord w.name)
    (hparameters : Variable.areListed isWord isWord w.parameters)
    (hprecondition : ∀ g ∈ w.precondition.join, g.isRegular isWord isWord)
    (heffect : ∀ g ∈ w.effect.join, g.isRegular isWord isWord) :
  Spells w.text (.opening :: .keyword "action" :: (w.contents ++ [.closing]))
  := by
  have hblank : ∀ s : String, isApart (" " ++ s) := isApart_append rfl (by decide)
  have hclosed := (spells_partText (show isWord "effect" from rfl) heffect).append
    Spells.closing rfl
  have hparts := (spells_partText (show isWord "precondition" from rfl) hprecondition).append
    hclosed (isApart_append_of_isApart (isApart_partText _ _) rfl)
  have hlist := (spells_parenthesized (Variable.spells_listText hparameters)).append hparts
    (isApart_append_of_isApart (isApart_partText _ _)
      (isApart_append_of_isApart (isApart_partText _ _) rfl))
  have hkeyword := (Spells.keyword (show isWord "parameters" from rfl)).append hlist.blank
    (hblank _)
  have hnamed := (Spells.name hname).append hkeyword.blank (hblank _)
  have haction := ((Spells.keyword (show isWord "action" from rfl)).append hnamed.blank
    (hblank _)).opening
  have htext : w.text = "(" ++ (":" ++ "action" ++ (" " ++ (w.name ++ (" " ++ (":" ++
      "parameters" ++ (" " ++ ("(" ++ Variable.listText w.parameters ++ ")" ++
        (partText "precondition" w.precondition ++
          (partText "effect" w.effect ++ ")"))))))))) := by
    have hkeyword : " :parameters (" = " " ++ (":" ++ ("parameters" ++ (" " ++ "("))) := by
      decide +kernel
    delta text
    rw [hkeyword]
    simp only [← String.append_assoc]
    rfl
  rw [htext]
  simpa [contents] using haction

/-! ### What is declared -/

/-- The action that is declared, where its name stands at a position. -/
def toAction (w : WrittenAction) (position : Position) : Action where
  name := w.name
  position := position
  parameters := w.parameters
  precondition := w.precondition.join
  effect := w.effect.join

/-- A part of an action whose names are words in lower case is written as its lexemes. -/
theorem exists_writtenPart {q : String → Bool} (word : String) (p : Part)
    {f : Option (Option Formula)} (h : ∀ g ∈ f.join, g.isRegular isLowerWord q) :
  ∃ es, Formula.WrittenPart word p f.join (partLexemes word f) es
  := by
  cases f with
  | none => exact ⟨_, .absent⟩
  | some f =>
    obtain ⟨es, hes⟩ := Formula.exists_writtenOption h
    exact ⟨_, .introduced hes⟩

/-- An action section is written as the lexemes of the action. -/
theorem exists_written {w : WrittenAction} (hw : w.isRegular) {name : Token}
    (hname : name.lexeme = .name w.name) :
  ∃ es, Section.Written name .action (.action (w.toAction name.position))
    (w.contents ++ [.closing]) es
  := by
  obtain ⟨hword, hparameters, hprecondition, heffect⟩ := forall_of_isRegular hw
  obtain ⟨hproper, hvars, -⟩ := TypedList.written_ofVariables hparameters
  obtain ⟨es, hf⟩ := exists_writtenPart "precondition" .precondition
    fun g hg => (hprecondition g hg).2
  obtain ⟨es', hg⟩ := exists_writtenPart "effect" .effect fun g hg => (heffect g hg).2
  have haction := Section.Written.action (congrArg Lexeme.kind hname) hproper hf hg
  rw [hvars, TypedList.lexemes_written, hname, Lexeme.denotes_name.name_eq hname,
    toLower_of_isLowerWord hword] at haction
  have hcontents : w.contents ++ [.closing] = .name w.name :: .keyword "parameters" :: .opening ::
      (((TypedList.ofVariables w.parameters).lexemes .var ++ [.closing]) ++
        (partLexemes "precondition" w.precondition ++
          (partLexemes "effect" w.effect ++ [.closing]))) := by
    simp [contents]
  rw [hcontents]
  exact ⟨_, haction⟩

end WrittenAction

/-- An action section is read from the lexemes of the action. -/
theorem SectionKind.read_action {gate : Gate} (hgate : gate.AllowsFormulas) {w : WrittenAction}
    (hw : w.isRegular) {tokens : List Token} {rest : List Lexeme}
    (htokens : tokens.map Token.lexeme = w.contents ++ [.closing] ++ rest) :
  ∃ position c, action.read gate none tokens = .ok (.action (w.toAction position), c)
  := by
  obtain ⟨name, ts, rfl, hname, -⟩ := List.map_eq_cons_iff.mp htokens
  obtain ⟨es, hwritten⟩ := WrittenAction.exists_written hw hname
  obtain ⟨-, -, hprecondition, heffect⟩ := WrittenAction.forall_of_isRegular hw
  have hgrammar : (Section.action (w.toAction name.position)).hasGrammar := by
    rw [Section.hasGrammar, Bool.and_eq_true, Option.all_eq_true, Option.all_eq_true]
    exact ⟨fun g hg => (hprecondition g hg).1, fun g hg => (heffect g hg).1⟩
  obtain ⟨c, hread, -⟩ := read_of_written hgate hwritten hgrammar none htokens fun _ => rfl
  rw [Section.withDefault_none] at hread
  exact ⟨name.position, c, hread⟩

end PlanLang
