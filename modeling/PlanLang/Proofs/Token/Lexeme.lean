import PlanLang.Token.Lexer

/-!
# Lexemes

A lexeme is a token without its place.  The lexemes of a text do not depend on where the text
stands in the source, and those of a text that is put together from other texts follow from
theirs, as long as no name runs into what comes after it.
-/

namespace PlanLang

/-- The class of a token and its text. -/
structure Lexeme where
  kind : TokenKind
  text : String
deriving DecidableEq, Repr

namespace Lexeme

def opening : Lexeme := ⟨.opening, "("⟩

def closing : Lexeme := ⟨.closing, ")"⟩

def dash : Lexeme := ⟨.dash, "-"⟩

def equals : Lexeme := ⟨.equals, "="⟩

/-- The lexeme of a name. -/
def name (word : String) : Lexeme := ⟨.name, word⟩

/-- The lexeme of a variable, whose question mark is not part of `word`. -/
def var (word : String) : Lexeme := ⟨.var, "?" ++ word⟩

/-- The lexeme of a keyword, whose colon is not part of `word`. -/
def keyword (word : String) : Lexeme := ⟨.keyword, ":" ++ word⟩

/-- The lexeme is the name `word`, whatever the case of its letters. -/
def isName (l : Lexeme) (word : String) : Bool :=
  l.kind = .name && sameWord l.text word

/-- The lexeme is the keyword `word`, which is written with its colon. -/
def isKeyword (l : Lexeme) (word : String) : Bool :=
  l.kind = .keyword && sameWord l.text word

end Lexeme

/-- The lexeme of a token. -/
def Token.lexeme (t : Token) : Lexeme :=
  ⟨t.kind, t.text⟩

/-- A letter, followed by letters, digits, dashes and underscores. -/
def isWord (word : String) : Bool :=
  match word.toList with
  | [] => false
  | c :: cs => c.isAlpha && cs.all Lexer.continuesName

/-- A word in lower case. -/
def isLowerWord (word : String) : Bool :=
  isWord word && word.toLower = word

theorem isWord_of_isLowerWord {word : String} (h : isLowerWord word) :
  isWord word
  := by
  rw [isLowerWord, Bool.and_eq_true] at h
  exact h.1

theorem toLower_of_isLowerWord {word : String} (h : isLowerWord word) :
  word.toLower = word
  := by
  rw [isLowerWord, Bool.and_eq_true] at h
  apply of_decide_eq_true h.2

namespace Lexer

/-! ### The lexemes of characters -/

/-- The lexemes of characters. -/
def lexemes (cs : List Char) : List Lexeme :=
  (tokens .start cs).map Token.lexeme

/-- Characters have the same lexemes wherever they stand. -/
theorem map_lexeme_tokens_eq (p q : Place) (cs : List Char) :
  (tokens p cs).map Token.lexeme = (tokens q cs).map Token.lexeme
  := by
  induction p, cs using tokens.induct generalizing q with
  | case1 p => rw [tokens, tokens]
  | case2 p c cs hblank ih =>
    rw [tokens, if_pos hblank, tokens, if_pos hblank]
    apply ih
  | case3 p cs comment hblank ih =>
    rw [tokens, if_neg hblank, if_pos rfl, tokens, if_neg hblank, if_pos rfl]
    apply ih
  | case4 p c cs hblank hcomment kind tail hlexeme ih =>
    rw [tokens, if_neg hblank, if_neg hcomment, tokens, if_neg hblank, if_neg hcomment]
    simp only [hlexeme, List.map_cons]
    congr 1
    apply ih

theorem map_lexeme_tokens (p : Place) (cs : List Char) :
  (tokens p cs).map Token.lexeme = lexemes cs
  := map_lexeme_tokens_eq p .start cs

theorem lexemes_nil :
  lexemes [] = []
  := by
  rw [lexemes, tokens]
  rfl

theorem lexemes_blank {c : Char} (hc : isBlank c) (cs : List Char) :
  lexemes (c :: cs) = lexemes cs
  := by
  rw [lexemes, tokens, if_pos hc, map_lexeme_tokens]

/-- A character that is neither blank nor a semicolon begins a lexeme. -/
theorem lexemes_cons {c : Char} (hblank : isBlank c = false) (hcomment : c ≠ ';')
    (cs : List Char) :
  lexemes (c :: cs) =
    ⟨(lexeme c cs).1, String.ofList (c :: (lexeme c cs).2)⟩ ::
      lexemes (cs.drop (lexeme c cs).2.length)
  := by
  rw [lexemes, tokens, if_neg (by simp [hblank]), if_neg hcomment, List.map_cons,
    map_lexeme_tokens]
  rfl

/-! ### Signs and words -/

theorem lexemes_opening (cs : List Char) :
  lexemes ('(' :: cs) = .opening :: lexemes cs
  := lexemes_cons rfl (by decide) cs

theorem lexemes_closing (cs : List Char) :
  lexemes (')' :: cs) = .closing :: lexemes cs
  := lexemes_cons rfl (by decide) cs

theorem lexemes_dash (cs : List Char) :
  lexemes ('-' :: cs) = .dash :: lexemes cs
  := lexemes_cons rfl (by decide) cs

theorem lexemes_equals (cs : List Char) :
  lexemes ('=' :: cs) = .equals :: lexemes cs
  := lexemes_cons rfl (by decide) cs

/-- No name continues into the characters. -/
def isApart (cs : List Char) : Bool :=
  !cs.head?.any continuesName

/-- A word that nothing continues is cut off at its end. -/
theorem takeWhile_word {w rest : List Char} (hw : w.all continuesName) (hrest : isApart rest) :
  (w ++ rest).takeWhile continuesName = w
  := by
  have htail : rest.takeWhile continuesName = [] := by
    cases rest with
    | nil => rfl
    | cons c cs =>
      have hc : continuesName c = false := by simpa [isApart] using hrest
      rw [List.takeWhile_cons, hc]
      rfl
  rw [List.takeWhile_append_of_pos (List.all_eq_true.mp hw), htail, List.append_nil]

/-- A letter is neither blank nor a sign. -/
theorem ne_of_isAlpha {c d : Char} (hc : c.isAlpha) (hd : d.isAlpha = false) :
  c ≠ d
  := by
  rintro rfl
  rw [hc] at hd
  contradiction

theorem isBlank_of_isAlpha {c : Char} (hc : c.isAlpha) :
  isBlank c = false
  := by
  simp [isBlank, ne_of_isAlpha hc]

theorem continuesName_of_isAlpha {c : Char} (hc : c.isAlpha) :
  continuesName c
  := by
  simp [continuesName, Char.isAlphanum, hc]

/-- A word begins with a letter, and all its characters continue a name. -/
theorem exists_of_isWord {word : String} (h : isWord word) :
  ∃ c cs, word.toList = c :: cs ∧ c.isAlpha ∧ cs.all continuesName
  := by
  unfold isWord at h
  split at h
  · contradiction
  · rename_i c cs hcs
    rw [Bool.and_eq_true] at h
    exact ⟨c, cs, hcs, h.1, h.2⟩

theorem all_continuesName_of_isWord {word : String} (h : isWord word) :
  word.toList.all continuesName
  := by
  obtain ⟨c, cs, hcs, hc, hall⟩ := exists_of_isWord h
  rw [hcs, List.all_cons, continuesName_of_isAlpha hc, hall, Bool.and_self]

theorem lexemes_name {word : String} (h : isWord word) {rest : List Char} (hrest : isApart rest) :
  lexemes (word.toList ++ rest) = .name word :: lexemes rest
  := by
  obtain ⟨c, cs, hcs, hc, hall⟩ := exists_of_isWord h
  have hlexeme : lexeme c (cs ++ rest) = (.name, cs) := by
    simp [lexeme, ne_of_isAlpha hc, hc, takeWhile_word hall hrest]
  rw [hcs, List.cons_append, lexemes_cons (isBlank_of_isAlpha hc) (ne_of_isAlpha hc rfl), hlexeme,
    List.drop_left, ← hcs, String.ofList_toList]
  rfl

theorem startsName_of_isWord {word : String} (h : isWord word) (rest : List Char) :
  startsName (word.toList ++ rest)
  := by
  obtain ⟨c, cs, hcs, hc, -⟩ := exists_of_isWord h
  rw [hcs, startsName]
  simpa using hc

theorem lexemes_var {word : String} (h : isWord word) {rest : List Char} (hrest : isApart rest) :
  lexemes ('?' :: (word.toList ++ rest)) = .var word :: lexemes rest
  := by
  have hlexeme : lexeme '?' (word.toList ++ rest) = (.var, word.toList) := by
    simp [lexeme, startsName_of_isWord h, takeWhile_word (all_continuesName_of_isWord h) hrest]
  rw [lexemes_cons rfl (by decide), hlexeme, List.drop_left, String.ofList_cons,
    String.ofList_toList]
  rfl

theorem lexemes_keyword {word : String} (h : isWord word) {rest : List Char}
    (hrest : isApart rest) :
  lexemes (':' :: (word.toList ++ rest)) = .keyword word :: lexemes rest
  := by
  have hlexeme : lexeme ':' (word.toList ++ rest) = (.keyword, word.toList) := by
    simp [lexeme, startsName_of_isWord h, takeWhile_word (all_continuesName_of_isWord h) hrest]
  rw [lexemes_cons rfl (by decide), hlexeme, List.drop_left, String.ofList_cons,
    String.ofList_toList]
  rfl

end Lexer

/-! ### Texts -/

/-- The text has the lexemes `ls`, whatever comes after it, as long as that does not continue a
name. -/
def Spells (text : String) (ls : List Lexeme) : Prop :=
  ∀ rest, Lexer.isApart rest → Lexer.lexemes (text.toList ++ rest) = ls ++ Lexer.lexemes rest

/-- The text does not continue a name that stands in front of it. -/
def isApart (text : String) : Bool :=
  Lexer.isApart text.toList

theorem isApart_append {s : String} (hs : isApart s) (hne : s ≠ "") (t : String) :
  isApart (s ++ t)
  := by
  rw [isApart, String.toList_append]
  rw [isApart] at hs
  cases h : s.toList with
  | nil =>
    have hempty : s = "" := String.toList_inj.mp h
    contradiction
  | cons c cs => rwa [h] at hs

theorem isApart_append_of_isApart {s t : String} (hs : isApart s) (ht : isApart t) :
  isApart (s ++ t)
  := by
  by_cases hne : s = ""
  · rwa [hne, String.empty_append]
  · apply isApart_append hs hne

theorem tokenize_spells {text : String} {ls : List Lexeme} (h : Spells text ls) :
  (tokenize text).map Token.lexeme = ls
  := by
  have hall := h [] rfl
  rwa [Lexer.lexemes_nil, List.append_nil, List.append_nil] at hall

namespace Spells

/-- A text after another one that it does not continue. -/
theorem append {s t : String} {ls ms : List Lexeme} (hs : Spells s ls) (ht : Spells t ms)
    (hapart : isApart t) :
  Spells (s ++ t) (ls ++ ms)
  := by
  intro rest hrest
  have htail : Lexer.isApart (t.toList ++ rest) := by
    rw [isApart] at hapart
    cases h : t.toList with
    | nil => exact hrest
    | cons c cs => rwa [h] at hapart
  rw [String.toList_append, List.append_assoc, hs _ htail, ht rest hrest, List.append_assoc]

theorem empty :
  Spells "" []
  := fun _ _ => rfl

theorem blank {s : String} {ls : List Lexeme} (h : Spells s ls) :
  Spells (" " ++ s) ls
  := by
  intro rest hrest
  rw [String.toList_append, List.append_assoc, ← h rest hrest]
  apply Lexer.lexemes_blank rfl

theorem opening {s : String} {ls : List Lexeme} (h : Spells s ls) :
  Spells ("(" ++ s) (.opening :: ls)
  := by
  intro rest hrest
  rw [String.toList_append, List.append_assoc, List.cons_append, ← h rest hrest]
  apply Lexer.lexemes_opening

theorem closing :
  Spells ")" [.closing]
  := fun _ _ => Lexer.lexemes_closing _

theorem dash :
  Spells "-" [.dash]
  := fun _ _ => Lexer.lexemes_dash _

theorem equals :
  Spells "=" [.equals]
  := fun _ _ => Lexer.lexemes_equals _

theorem name {word : String} (h : isWord word) :
  Spells word [.name word]
  := fun _ hrest => Lexer.lexemes_name h hrest

theorem var {word : String} (h : isWord word) :
  Spells ("?" ++ word) [.var word]
  := by
  intro rest hrest
  rw [String.toList_append, List.append_assoc]
  apply Lexer.lexemes_var h hrest

theorem keyword {word : String} (h : isWord word) :
  Spells (":" ++ word) [.keyword word]
  := by
  intro rest hrest
  rw [String.toList_append, List.append_assoc]
  apply Lexer.lexemes_keyword h hrest

end Spells

end PlanLang
