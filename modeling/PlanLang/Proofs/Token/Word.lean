import Mathlib
import PlanLang.Proofs.Token.Lexeme

/-!
# The names of tokens

The name that a token of a source stands for is a word in lower case, however it is written.
-/

namespace PlanLang

/-! ### Words in lower case -/

/-- Lowering a character leaves it as it is or makes a letter of a letter. -/
theorem toLower_eq_or_isAlpha (c : Char) :
  c.toLower = c ∨ c.isAlpha ∧ c.toLower.isAlpha
  := by
  by_cases h : c.isUpper
  · right
    have hletter : c.isAlpha := by rw [Char.isAlpha, h, Bool.true_or]
    exact ⟨hletter, (Char.isAlpha_toLower_eq_isAlpha c).trans hletter⟩
  · left
    exact Char.toLower_eq_of_not_isUpper h

/-- What all letters have in common does not depend on the case. -/
theorem apply_toLower {α : Type} {f : Char → α}
    (hf : ∀ {c d : Char}, c.isAlpha → d.isAlpha → f c = f d) (c : Char) :
  f c.toLower = f c
  := by
  rcases toLower_eq_or_isAlpha c with heq | ⟨hc, hlower⟩
  · rw [heq]
  · exact hf hlower hc

theorem Lexer.continuesName_toLower (c : Char) :
  continuesName c.toLower = continuesName c
  := by
  apply apply_toLower
  intro c d hc hd
  rw [continuesName_of_isAlpha hc, continuesName_of_isAlpha hd]

/-- A letter and characters that continue a name make up a word. -/
theorem isWord_ofList {c : Char} {cs : List Char} (hc : c.isAlpha)
    (hcs : cs.all Lexer.continuesName) :
  isWord (String.ofList (c :: cs))
  := by
  rw [isWord, String.toList_ofList, Bool.and_eq_true]
  exact ⟨hc, hcs⟩

/-- Lowering a word gives a word in lower case. -/
theorem isLowerWord_toLower {word : String} (h : isWord word) :
  isLowerWord word.toLower
  := by
  obtain ⟨c, cs, hword, hc, hcs⟩ := Lexer.exists_of_isWord h
  have hchars : word.toLower = String.ofList (c.toLower :: cs.map Char.toLower) := by
    rw [← String.toList_inj, toList_toLower, hword, String.toList_ofList, List.map_cons]
  have htail : (cs.map Char.toLower).all Lexer.continuesName := by
    rw [List.all_map, List.all_eq_true]
    intro d hd
    exact (Lexer.continuesName_toLower d).trans (List.all_eq_true.mp hcs d hd)
  have hhead : c.toLower.isAlpha := by rwa [Char.isAlpha_toLower_eq_isAlpha]
  rw [isLowerWord, Bool.and_eq_true, decide_eq_true_eq]
  refine ⟨?_, toLower_toLower word⟩
  rw [hchars]
  apply isWord_ofList hhead htail

/-! ### Tokens -/

namespace Lexer

/-- The characters that are cut off behind a sign that a name follows make up a word. -/
theorem isWord_takeWhile {cs : List Char} (h : startsName cs) :
  isWord (String.ofList (cs.takeWhile continuesName))
  := by
  cases cs with
  | nil => contradiction
  | cons c cs =>
    have hc : c.isAlpha := by simpa [startsName] using h
    rw [List.takeWhile_cons, if_pos (continuesName_of_isAlpha hc)]
    apply isWord_ofList hc List.all_takeWhile

/-- A name begins with a letter, and is as long as it can be. -/
theorem eq_takeWhile_of_lexeme_name {c : Char} {cs tail : List Char}
    (h : lexeme c cs = (.name, tail)) :
  c.isAlpha ∧ tail = cs.takeWhile continuesName
  := by
  unfold lexeme at h
  split_ifs at h <;> cases h
  exact ⟨‹_›, rfl⟩

/-- A variable is a sign that a name follows. -/
theorem eq_takeWhile_of_lexeme_var {c : Char} {cs tail : List Char}
    (h : lexeme c cs = (.var, tail)) :
  startsName cs ∧ tail = cs.takeWhile continuesName
  := by
  unfold lexeme at h
  split_ifs at h with _ _ _ _ hvar <;> cases h
  rw [Bool.and_eq_true] at hvar
  exact ⟨hvar.2, rfl⟩

/-- The token of a lexeme of a name or of a variable stands for a word. -/
theorem isLowerWord_of_lexeme {c : Char} {cs tail : List Char} {kind : TokenKind}
    (h : lexeme c cs = (kind, tail)) (hkind : kind = .name ∨ kind = .var) (p : Place) :
  isLowerWord (Token.name ⟨kind, String.ofList (c :: tail), p.offset, p.position⟩)
  := by
  rcases hkind with rfl | rfl
  · obtain ⟨hc, rfl⟩ := eq_takeWhile_of_lexeme_name h
    apply isLowerWord_toLower (isWord_ofList hc List.all_takeWhile)
  · obtain ⟨hcs, rfl⟩ := eq_takeWhile_of_lexeme_var h
    apply isLowerWord_toLower
    rw [String.toList_ofList, List.tail_cons]
    apply isWord_takeWhile hcs

theorem isLowerWord_of_mem_tokens {p : Place} {cs : List Char} {t : Token} (ht : t ∈ tokens p cs)
    (hkind : t.kind = .name ∨ t.kind = .var) :
  isLowerWord t.name
  := by
  induction p, cs using tokens.induct with
  | case1 p =>
    rw [tokens] at ht
    contradiction
  | case2 p c cs hblank ih =>
    rw [tokens, if_pos hblank] at ht
    apply ih ht
  | case3 p cs comment hblank ih =>
    rw [tokens, if_neg hblank, if_pos rfl] at ht
    apply ih ht
  | case4 p c cs hblank hcomment kind tail hlexeme ih =>
    rw [tokens, if_neg hblank, if_neg hcomment, hlexeme] at ht
    rcases List.mem_cons.mp ht with rfl | ht
    · apply isLowerWord_of_lexeme hlexeme hkind
    · apply ih ht

end Lexer

/-- A name or a variable of a source stands for a word in lower case. -/
theorem Token.isLowerWord_name {source : String} {t : Token} (ht : t ∈ tokenize source)
    (hkind : t.kind = .name ∨ t.kind = .var) :
  isLowerWord t.name
  := Lexer.isLowerWord_of_mem_tokens ht hkind

end PlanLang
