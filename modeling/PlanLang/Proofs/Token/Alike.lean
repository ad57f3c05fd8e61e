import PlanLang.Proofs.Token.Word
import PlanLang.Requirement

/-!
# Tokens that are alike

Two tokens are alike if they are of the same kind and their texts are the same word.  Such tokens
are the same name or keyword and stand for the same name.  Where they stand is another matter: how
their places are related is left open.  If two sources differ only in the case of their letters,
their tokens are alike and stand in the same places.
-/

namespace PlanLang

namespace Token

/-- Two tokens are of the same kind, their texts are the same word, and their places are related
by `near`. -/
structure Alike (near : Position → Position → Prop) (t t' : Token) : Prop where
  kind : t.kind = t'.kind
  text : sameWord t.text t'.text
  position : near t.position t'.position

variable {near : Position → Position → Prop} {t t' : Token}

/-- Tokens that are alike stand for the same name. -/
theorem Alike.name (h : t.Alike near t') :
  t.name = t'.name
  := by
  have hlower := sameWord_iff.mp h.text
  have htail : (String.ofList t.text.toList.tail).toLower
      = (String.ofList t'.text.toList.tail).toLower := by
    rw [← String.toList_inj, toList_toLower, toList_toLower] at hlower ⊢
    rw [String.toList_ofList, String.toList_ofList, List.map_tail, List.map_tail, hlower]
  rw [Token.name, Token.name, h.kind, htail, hlower]

/-- Tokens that are alike are the same names. -/
theorem Alike.isName (h : t.Alike near t') :
  t.isName = t'.isName
  := by
  funext word
  rw [Token.isName, Token.isName, h.kind, sameWord_congr h.text]

/-- Tokens that are alike are the same keywords. -/
theorem Alike.isKeyword (h : t.Alike near t') :
  t.isKeyword = t'.isKeyword
  := by
  funext word
  rw [Token.isKeyword, Token.isKeyword, h.kind, sameWord_congr h.text]

/-- The condition does not tell tokens apart that are alike. -/
def IsVerbal (near : Position → Position → Prop) (p : Token → Bool) : Prop :=
  ∀ {t t' : Token}, t.Alike near t' → p t = p t'

theorem isVerbal_kind (kind : TokenKind) :
  IsVerbal near (·.kind = kind)
  := by
  intro t t' h
  simp only [h.kind]

end Token

/-- A word declares a requirement however it is written. -/
theorem Requirement.ofKeyword?_congr {a b : String} (hab : sameWord a b) :
  ofKeyword? a = ofKeyword? b
  := by
  have hword : ∀ w, sameWord w a = sameWord w b := by
    intro w
    rw [sameWord, sameWord, sameWord_iff.mp hab]
  simp only [ofKeyword?, hword]

/-! ### Characters -/

namespace Lexer

end Lexer

/-! ### Sources -/

namespace Lexer

end Lexer

end PlanLang
