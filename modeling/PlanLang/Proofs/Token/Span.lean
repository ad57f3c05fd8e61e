import Mathlib
import PlanLang.Proofs.Token.Cut

/-!
# Where tokens stand

The tokens of a source stand one behind the other, each as long as it can be, and between them there
is nothing but white space and comments.  Their positions are those that an editor shows: lines are
counted by line feeds, and columns by the characters since the last of them.
-/

namespace PlanLang

/-! ### The characters of tokens -/

/-- The character begins no token of its own kind, and it is neither white space nor the beginning
of a comment. -/
def Lexer.isForeign (c : Char) : Bool :=
  c ∉ ['(', ')', '-', '=', '?', ':', ';'] && !c.isAlpha && !isBlank c

/-- A token of a kind may consist of the characters where `rest` follows them.  A sign is a single
character.  A name is a word that the next character does not continue, and so is what follows the
sign of a variable or a keyword.  All other tokens are single characters as well: those that begin
nothing, and signs that no name follows. -/
def TokenKind.Fits (rest : List Char) : TokenKind → List Char → Prop
  | .opening, cs => cs = ['(']
  | .closing, cs => cs = [')']
  | .dash, cs => cs = ['-']
  | .equals, cs => cs = ['=']
  | .name, cs => isWord (.ofList cs) ∧ Lexer.isApart rest
  | .var, cs => ∃ word, cs = '?' :: word ∧ isWord (.ofList word) ∧ Lexer.isApart rest
  | .keyword, cs => ∃ word, cs = ':' :: word ∧ isWord (.ofList word) ∧ Lexer.isApart rest
  | .invalid, cs =>
    ∃ c, cs = [c] ∧ ((c = '?' ∨ c = ':') ∧ Lexer.startsName rest = false ∨ Lexer.isForeign c)

namespace Lexer

/-- The longest part that continues a name is not continued by what follows it. -/
theorem isApart_of_takeWhile {cs rest : List Char}
    (h : cs = (cs ++ rest).takeWhile continuesName) :
  isApart rest
  := by
  have hall : ∀ c ∈ cs, continuesName c := by
    rw [h]
    exact fun c hc => List.mem_takeWhile_imp hc
  rw [List.takeWhile_append_of_pos hall] at h
  cases rest with
  | nil => rfl
  | cons c rest =>
    have hc : ¬continuesName c := by
      intro hc
      rw [List.takeWhile_cons_of_pos hc] at h
      simp at h
    simpa [isApart] using hc

/-- What is cut off behind a sign that a name follows is a word, as long as it can be. -/
theorem isWord_and_isApart_of_takeWhile {cs rest : List Char} (hname : startsName (cs ++ rest))
    (h : (cs ++ rest).takeWhile continuesName = cs) :
  isWord (.ofList cs) ∧ isApart rest
  := by
  have hword := isWord_takeWhile hname
  rw [h] at hword
  exact ⟨hword, isApart_of_takeWhile h.symm⟩

/-- What begins with neither a blank nor a semicolon is cut off as a token of its kind. -/
theorem fits_of_lexeme {c : Char} (hblank : ¬isBlank c) (hcomment : c ≠ ';') {kind : TokenKind}
    {tail rest : List Char} (h : lexeme c (tail ++ rest) = (kind, tail)) :
  kind.Fits rest (c :: tail)
  := by
  unfold lexeme at h
  split_ifs at h with hopening hclosing hdash hequals hvar hkeyword hletter
  all_goals
    rw [Prod.mk.injEq] at h
    obtain ⟨rfl, htail⟩ := h
  · rw [← htail, hopening]
    rfl
  · rw [← htail, hclosing]
    rfl
  · rw [← htail, hdash]
    rfl
  · rw [← htail, hequals]
    rfl
  · rw [Bool.and_eq_true, decide_eq_true_eq] at hvar
    exact ⟨tail, by rw [hvar.1], isWord_and_isApart_of_takeWhile hvar.2 htail⟩
  · rw [Bool.and_eq_true, decide_eq_true_eq] at hkeyword
    exact ⟨tail, by rw [hkeyword.1], isWord_and_isApart_of_takeWhile hkeyword.2 htail⟩
  · have hall : tail.all continuesName := by
      rw [← htail]
      exact List.all_takeWhile
    exact ⟨isWord_ofList hletter hall, isApart_of_takeWhile htail.symm⟩
  · refine ⟨c, by rw [← htail], ?_⟩
    rw [← htail, List.nil_append] at hvar hkeyword
    by_cases hsign : c = '?' ∨ c = ':'
    · refine .inl ⟨hsign, ?_⟩
      rcases hsign with rfl | rfl
      · simpa using hvar
      · simpa using hkeyword
    · rw [not_or] at hsign
      exact .inr (by simp [isForeign, hopening, hclosing, hdash, hequals, hsign, hcomment, hletter,
        hblank])

end Lexer

namespace TokenKind.Fits

variable {kind : TokenKind} {cs rest : List Char}

/-- A word consists of characters that continue names. -/
theorem continuesName_of_mem_word {cs : List Char} (h : isWord (.ofList cs)) :
  ∀ c ∈ cs, Lexer.continuesName c
  := by
  have hall := Lexer.all_continuesName_of_isWord h
  rw [String.toList_ofList] at hall
  exact List.all_eq_true.mp hall

/-- Each character of a token continues names, is one of the signs, or is foreign. -/
theorem cases_of_mem (h : kind.Fits rest cs) {c : Char} (hc : c ∈ cs) :
  Lexer.continuesName c ∨ c ∈ ['(', ')', '-', '=', '?', ':'] ∨ Lexer.isForeign c
  := by
  cases kind with
  | name => exact .inl (continuesName_of_mem_word h.1 c hc)
  | var | keyword =>
    obtain ⟨word, rfl, hword, -⟩ := h
    rcases List.mem_cons.mp hc with rfl | hc
    · exact .inr (.inl (by decide))
    · exact .inl (continuesName_of_mem_word hword c hc)
  | invalid =>
    obtain ⟨c', rfl, hsign | hforeign⟩ := h
    · obtain rfl := List.mem_singleton.mp hc
      rcases hsign.1 with rfl | rfl <;> exact .inr (.inl (by decide))
    · obtain rfl := List.mem_singleton.mp hc
      exact .inr (.inr hforeign)
  | _ =>
    obtain rfl : cs = _ := h
    obtain rfl := List.mem_singleton.mp hc
    exact .inr (.inl (by decide))

/-- No character of a token is white space or begins a comment. -/
theorem ne_of_mem (h : kind.Fits rest cs) {c : Char} (hc : c ∈ cs) :
  Lexer.isBlank c = false ∧ c ≠ ';'
  := by
  rcases h.cases_of_mem hc with hname | hsign | hforeign
  · have hne : ∀ d : Char, Lexer.continuesName d = false → c ≠ d := by
      rintro d hd rfl
      rw [hname] at hd
      contradiction
    constructor
    · simp [Lexer.isBlank, hne ' ' rfl, hne '\t' rfl, hne '\r' rfl, hne '\n' rfl]
    · exact hne ';' rfl
  · fin_cases hsign <;> decide
  · simp only [Lexer.isForeign, List.mem_cons, Bool.and_eq_true, decide_eq_true_eq,
      Bool.not_eq_true', not_or] at hforeign
    exact ⟨hforeign.2, hforeign.1.1.2.2.2.2.2.2.1⟩

theorem ne_nil (h : kind.Fits rest cs) :
  cs ≠ []
  := by
  rintro rfl
  cases kind with
  | name => exact absurd h.1 (by decide)
  | var | keyword | invalid =>
    obtain ⟨_, heq, -⟩ := h
    contradiction
  | _ => contradiction

end TokenKind.Fits

namespace Lexer

/-! ### The places of tokens -/

/-- A token consists of characters of the source, and its place is the one behind the characters in
front of it. -/
theorem Cuts.exists_of_mem {p : Place} {cs : List Char} {ts : List Token} (h : Cuts p cs ts)
    {t : Token} (ht : t ∈ ts) :
  ∃ front rest, cs = front ++ (t.text.toList ++ rest) ∧
    (⟨t.offset, t.position⟩ : Place) = p.pastAll front ∧ t.kind.Fits rest t.text.toList
  := by
  induction h with
  | nil p => contradiction
  | @blank p c cs ts hblank _ ih =>
    obtain ⟨front, rest, rfl, hplace, hfits⟩ := ih ht
    exact ⟨c :: front, rest, rfl, hplace, hfits⟩
  | @comment p comment rest ts hcomment _ ih =>
    obtain ⟨front, back, rfl, hplace, hfits⟩ := ih ht
    refine ⟨';' :: (comment ++ front), back, by simp, ?_, hfits⟩
    rw [hplace, ← pastAll_append]
    rfl
  | @token p c kind tail rest ts hblank hcomment hlexeme _ ih =>
    rcases List.mem_cons.mp ht with rfl | ht
    · refine ⟨[], rest, ?_, rfl, ?_⟩
      · simp
      · rw [String.toList_ofList]
        exact fits_of_lexeme hblank hcomment hlexeme
    · obtain ⟨front, back, rfl, hplace, hfits⟩ := ih ht
      refine ⟨c :: (tail ++ front), back, by simp, ?_, hfits⟩
      rw [hplace, ← pastAll_append]
      rfl

theorem Cuts.le_offset {p : Place} {cs : List Char} {ts : List Token} (h : Cuts p cs ts)
    {t : Token} (ht : t ∈ ts) :
  p.offset ≤ t.offset
  := by
  obtain ⟨front, _, -, hplace, -⟩ := h.exists_of_mem ht
  have hoffset : t.offset = (p.pastAll front).offset := congrArg Place.offset hplace
  rw [hoffset, offset_pastAll]
  apply Nat.le_add_right

/-- Tokens do not overlap. -/
theorem Cuts.pairwise {p : Place} {cs : List Char} {ts : List Token} (h : Cuts p cs ts) :
  ts.Pairwise fun t u => t.stop ≤ u.offset
  := by
  induction h with
  | nil p => exact .nil
  | blank _ _ ih => exact ih
  | comment _ _ ih => exact ih
  | @token p c kind tail rest ts _ _ _ h ih =>
    refine .cons ?_ ih
    intro u hu
    have hle := h.le_offset hu
    rwa [offset_pastAll] at hle

/-! ### What stands between tokens -/

/-- A member of two lists one after the other is one of the first list or one of the second. -/
theorem cases_of_append_eq_append_cons {α : Type} (as : List α) {bs front back : List α} {a : α}
    (h : as ++ bs = front ++ a :: back) :
  (∃ mid, as = front ++ a :: mid) ∨ ∃ mid, front = as ++ mid ∧ bs = mid ++ a :: back
  := by
  rcases List.append_eq_append_iff.mp h with ⟨mid, rfl, rfl⟩ | ⟨mid, rfl, hmid⟩
  · exact .inr ⟨mid, rfl, rfl⟩
  · cases mid with
    | nil => exact .inr ⟨[], by simp, hmid.symm⟩
    | cons c mid =>
      obtain ⟨rfl, -⟩ := List.cons.inj hmid
      exact .inl ⟨mid, rfl⟩

/-- The last of the characters belongs to a comment: a semicolon stands in the same line, there or
before it. -/
def EndsInComment (cs : List Char) : Prop :=
  ∃ before comment, cs = before ++ ';' :: comment ∧ '\n' ∉ comment

/-- Where no comment begins, none goes on. -/
theorem endsInComment_append {as : List Char} (has : ';' ∉ as) (bs : List Char) :
  EndsInComment (as ++ bs) ↔ EndsInComment bs
  := by
  constructor
  · rintro ⟨before, comment, heq, hcomment⟩
    rcases cases_of_append_eq_append_cons as heq with ⟨mid, rfl⟩ | ⟨mid, rfl, rfl⟩
    · simp at has
    · exact ⟨mid, comment, rfl, hcomment⟩
  · rintro ⟨before, comment, rfl, hcomment⟩
    exact ⟨as ++ before, comment, by simp, hcomment⟩

/-- No comment goes on in a new line. -/
theorem endsInComment_append_newline (as bs : List Char) :
  EndsInComment (as ++ '\n' :: bs) ↔ EndsInComment bs
  := by
  constructor
  · rintro ⟨before, comment, heq, hcomment⟩
    rcases List.append_eq_append_iff.mp heq with ⟨mid, rfl, hmid⟩ | ⟨mid, rfl, hmid⟩
    · cases mid with
      | nil => simp at hmid
      | cons c mid =>
        obtain ⟨-, rfl⟩ := List.cons.inj hmid
        exact ⟨mid, comment, rfl, hcomment⟩
    · cases mid with
      | nil => simp at hmid
      | cons c mid =>
        obtain ⟨-, rfl⟩ := List.cons.inj hmid
        simp at hcomment
  · rintro ⟨before, comment, rfl, hcomment⟩
    exact ⟨as ++ '\n' :: before, comment, by simp, hcomment⟩

end Lexer

/-- The byte behind the first `offset` ones belongs to the token. -/
def Token.Covers (t : Token) (offset : Nat) : Prop :=
  t.offset ≤ offset ∧ offset < t.stop

namespace Lexer

/-- A character in front of the tokens belongs to none of them. -/
theorem Cuts.not_covers {p : Place} (front : List Char) (c : Char) (mid : List Char)
    {cs : List Char} {ts : List Token} (h : Cuts (p.pastAll (front ++ c :: mid)) cs ts)
    {t : Token} (ht : t ∈ ts) :
  ¬t.Covers (p.pastAll front).offset
  := by
  have hle := h.le_offset ht
  rw [pastAll_append, offset_pastAll, String.ofList_cons, String.utf8ByteSize_append] at hle
  have hpos := Char.utf8Size_pos c
  rintro ⟨hoffset, -⟩
  simp at hle
  omega

theorem not_endsInComment_nil :
  ¬EndsInComment []
  := by
  rintro ⟨before, comment, heq, -⟩
  simp at heq

/-- Behind a comment there is nothing, or the line ends. -/
theorem endsInComment_behind_comment {comment rest : List Char}
    (hcomment : (comment ++ rest).takeWhile (· != '\n') = comment) {mid back : List Char} {c : Char}
    (hrest : rest = mid ++ c :: back) :
  EndsInComment (';' :: comment ++ (mid ++ [c])) ↔ EndsInComment (mid ++ [c])
  := by
  have hnewline : ∃ cs, mid ++ [c] = '\n' :: cs := by
    have hall : ∀ d ∈ comment, (d != '\n') = true := by
      rw [← hcomment]
      intro d hd
      simpa using List.mem_takeWhile_imp hd
    rw [hrest, List.takeWhile_append_of_pos hall] at hcomment
    cases mid with
    | nil =>
      by_cases hc : c = '\n'
      · exact ⟨[], by rw [hc]; rfl⟩
      · simp [hc] at hcomment
    | cons d mid =>
      by_cases hd : d = '\n'
      · exact ⟨mid ++ [c], by rw [hd]; rfl⟩
      · simp [hd] at hcomment
  obtain ⟨cs, hcs⟩ := hnewline
  rw [hcs, endsInComment_append_newline, ← endsInComment_append_newline [], List.nil_append]

/-- A character belongs to a token unless it is white space or part of a comment. -/
theorem Cuts.covered_iff {p : Place} {cs : List Char} {ts : List Token} (h : Cuts p cs ts)
    {front back : List Char} {c : Char} (hcs : cs = front ++ c :: back) :
  (∃ t ∈ ts, t.Covers (p.pastAll front).offset) ↔
    isBlank c = false ∧ ¬EndsInComment (front ++ [c])
  := by
  induction h generalizing front with
  | nil p => simp at hcs
  | @blank p d cs ts hblank h ih =>
    rcases cases_of_append_eq_append_cons [d] hcs with ⟨mid, hd⟩ | ⟨mid, rfl, hrest⟩
    · obtain ⟨rfl, hd⟩ | ⟨-, hnil⟩ := List.singleton_eq_append_iff.mp hd
      · obtain ⟨rfl, rfl⟩ := List.cons.inj hd
        apply iff_of_false
        · rintro ⟨t, ht, hcovers⟩
          exact h.not_covers [] d [] ht hcovers
        · simp [hblank]
      · contradiction
    · have hd : ';' ∉ [d] := by
        rintro hmem
        obtain rfl := List.mem_singleton.mp hmem
        contradiction
      rw [pastAll_append, List.append_assoc, endsInComment_append hd]
      exact ih hrest
  | @comment p comment rest ts hcomment h ih =>
    rcases cases_of_append_eq_append_cons (';' :: comment) hcs with
      ⟨mid, hpiece⟩ | ⟨mid, rfl, hrest⟩
    · rw [hpiece] at h
      apply iff_of_false
      · rintro ⟨t, ht, hcovers⟩
        exact h.not_covers front c mid ht hcovers
      · have hall : '\n' ∉ comment := by
          rw [← hcomment]
          intro hmem
          have := List.mem_takeWhile_imp hmem
          contradiction
        have hends : EndsInComment (front ++ [c]) := by
          cases front with
          | nil =>
            obtain ⟨rfl, -⟩ := List.cons.inj hpiece
            exact ⟨[], [], rfl, List.not_mem_nil⟩
          | cons d front =>
            obtain ⟨rfl, rfl⟩ := List.cons.inj hpiece
            refine ⟨[], front ++ [c], rfl, ?_⟩
            intro hmem
            apply hall
            simpa using Or.imp_right .inl (by simpa using hmem)
        exact fun hnot => hnot.2 hends
    · rw [pastAll_append, List.append_assoc, endsInComment_behind_comment hcomment hrest]
      exact ih hrest
  | @token p d kind tail rest ts hblank hcomment hlexeme h ih =>
    have hfits := fits_of_lexeme hblank hcomment hlexeme
    have hstop : p.offset + (String.ofList (d :: tail)).utf8ByteSize
        = (p.pastAll (d :: tail)).offset := (offset_pastAll p (d :: tail)).symm
    rcases cases_of_append_eq_append_cons (d :: tail) hcs with
      ⟨mid, hpiece⟩ | ⟨mid, rfl, hrest⟩
    · have hmem : ∀ e ∈ front ++ [c], e ∈ d :: tail := by
        rw [hpiece, List.append_cons front c mid]
        exact fun e he => List.mem_append_left mid he
      have hsemicolon : ';' ∉ front ++ [c] := by
        intro hin
        exact (hfits.ne_of_mem (hmem _ hin)).2 rfl
      apply iff_of_true
      · refine ⟨_, List.mem_cons_self, ?_, ?_⟩
        · rw [offset_pastAll]
          apply Nat.le_add_right
        · have hpos := Char.utf8Size_pos c
          rw [Token.stop, hpiece, offset_pastAll]
          simp
          omega
      · constructor
        · exact (hfits.ne_of_mem (hmem c (by simp))).1
        · have hnil := endsInComment_append hsemicolon []
          rw [List.append_nil] at hnil
          exact fun hends => not_endsInComment_nil (hnil.mp hends)
    · have hsemicolon : ';' ∉ d :: tail := fun hmem => (hfits.ne_of_mem hmem).2 rfl
      rw [pastAll_append, List.append_assoc, endsInComment_append hsemicolon, ← ih hrest]
      constructor
      · rintro ⟨t, ht, hcovers⟩
        rcases List.mem_cons.mp ht with rfl | ht
        · have hlt : _ < _ := hcovers.2
          rw [Token.stop, hstop, offset_pastAll (p.pastAll (d :: tail))] at hlt
          exact absurd hlt (Nat.not_lt.mpr (Nat.le_add_right _ _))
        · exact ⟨t, ht, hcovers⟩
      · rintro ⟨t, ht, hcovers⟩
        exact ⟨t, List.mem_cons_of_mem _ ht, hcovers⟩

/-! ### Positions -/

/-- The position behind characters is found by counting lines, and the columns of the last line. -/
theorem position_pastAll_start (cs : List Char) :
  (Place.start.pastAll cs).position =
    ⟨1 + cs.count '\n', 1 + (cs.rtakeWhile (· ≠ '\n')).length⟩
  := by
  induction cs using List.reverseRecOn with
  | nil => rfl
  | append_singleton cs c ih =>
    have hlast : Place.start.pastAll (cs ++ [c]) = (Place.start.pastAll cs).past c :=
      pastAll_append _ _ _
    rw [hlast, Place.past, ih, List.rtakeWhile_concat, List.count_append]
    by_cases hc : c = '\n'
    · simp [hc, Nat.add_assoc]
    · simp [hc, Nat.add_assoc]

end Lexer

/-! ### Sources -/

/-- The tokens of a source follow one another without overlapping.  Each has at least one character,
stands between characters of the source, and is what its kind asks for where the source goes on
behind it; names, variables and keywords are as long as they can be.  Each character of the source
belongs to a token, unless it is white space or part of a comment, which runs from a semicolon to
the end of the line. -/
theorem tokenize_lossless (source : String) :
  (tokenize source).Pairwise (fun t u => t.stop ≤ u.offset) ∧
  (∀ t ∈ tokenize source, t.offset < t.stop ∧ ∃ front rest,
    source.toList = front ++ (t.text.toList ++ rest) ∧
      t.offset = (String.ofList front).utf8ByteSize ∧ t.kind.Fits rest t.text.toList) ∧
  ∀ front c back, source.toList = front ++ c :: back →
    ((∃ t ∈ tokenize source, t.Covers (String.ofList front).utf8ByteSize) ↔
      Lexer.isBlank c = false ∧ ¬Lexer.EndsInComment (front ++ [c]))
  := by
  have hcuts := Lexer.cuts_tokens .start source.toList
  have hoffset : ∀ cs, (Place.start.pastAll cs).offset = (String.ofList cs).utf8ByteSize := by
    intro cs
    rw [Lexer.offset_pastAll, Place.start, Nat.zero_add]
  refine ⟨hcuts.pairwise, ?_, ?_⟩
  · intro t ht
    obtain ⟨front, rest, hsource, hplace, hfits⟩ := hcuts.exists_of_mem ht
    constructor
    · have hne : t.text ≠ "" := by
        intro hempty
        exact hfits.ne_nil (by rw [hempty]; rfl)
      have hpos : 0 < t.text.utf8ByteSize := by
        rw [Nat.pos_iff_ne_zero]
        intro hzero
        exact hne (String.utf8ByteSize_eq_zero_iff.mp hzero)
      exact Nat.lt_add_of_pos_right hpos
    · refine ⟨front, rest, hsource, ?_, hfits⟩
      rw [← hoffset, ← hplace]
  · intro front c back hsource
    rw [← hoffset]
    exact hcuts.covered_iff hsource

/-- A name with a dash at its end, a comment, a sign that no name follows, and characters that begin
nothing.  The character behind four bytes belongs to the comment, and the one behind eight bytes is
a token. -/
theorem tokenize_lossless_mixed :
  let source := "a-(;é\n?1€:b"
  (tokenize source).map Token.lexeme = [⟨.name, "a-"⟩, ⟨.opening, "("⟩, ⟨.invalid, "?"⟩,
    ⟨.invalid, "1"⟩, ⟨.invalid, "€"⟩, ⟨.keyword, ":b"⟩] ∧
  (∀ t ∈ tokenize source, t.kind = .name → ∃ front rest,
    source.toList = front ++ (t.text.toList ++ rest) ∧ Lexer.isApart rest) ∧
  (¬∃ t ∈ tokenize source, t.Covers 4) ∧ ∃ t ∈ tokenize source, t.Covers 8
  := by
  intro source
  obtain ⟨-, htokens, hcharacters⟩ := tokenize_lossless source
  have hsource : source.toList = ['a', '-', '(', ';', 'é', '\n', '?', '1', '€', ':', 'b'] := by
    unfold source
    cbv
  refine ⟨?_, ?_, ?_, ?_⟩
  · unfold source
    cbv
  · intro t ht hname
    obtain ⟨-, front, rest, hfront, -, hfits⟩ := htokens t ht
    rw [hname] at hfits
    exact ⟨front, rest, hfront, hfits.2⟩
  · intro hcovers
    have hends : Lexer.EndsInComment ['a', '-', '(', ';', 'é'] :=
      ⟨['a', '-', '('], ['é'], rfl, by decide⟩
    have hiff := hcharacters ['a', '-', '(', ';'] 'é' ['\n', '?', '1', '€', ':', 'b'] hsource
    exact (hiff.mp hcovers).2 hends
  · have hends : ¬Lexer.EndsInComment ['a', '-', '(', ';', 'é', '\n', '?', '1'] := by
      have hline := Lexer.endsInComment_append_newline ['a', '-', '(', ';', 'é'] ['?', '1']
      have hsemicolon : ';' ∉ ['?', '1'] := by decide
      have hbegin := Lexer.endsInComment_append hsemicolon []
      exact fun h => Lexer.not_endsInComment_nil (hbegin.mp (hline.mp h))
    have hiff := hcharacters ['a', '-', '(', ';', 'é', '\n', '?'] '1' ['€', ':', 'b'] hsource
    exact hiff.mpr ⟨rfl, hends⟩

/-- The line of a token is one more than the number of line feeds in front of it, and its column is
one more than the number of characters between the last of these, or the beginning of the source,
and the token. -/
theorem tokenize_position (source : String) :
  ∀ t ∈ tokenize source, ∃ front rest,
    source.toList = front ++ (t.text.toList ++ rest) ∧
      t.offset = (String.ofList front).utf8ByteSize ∧
      t.position.line = 1 + front.count '\n' ∧
      t.position.column = 1 + (front.rtakeWhile (· ≠ '\n')).length
  := by
  intro t ht
  obtain ⟨front, rest, hsource, hplace, -⟩ :=
    (Lexer.cuts_tokens .start source.toList).exists_of_mem ht
  have hoffset : t.offset = (Place.start.pastAll front).offset := congrArg Place.offset hplace
  have hposition : t.position = (Place.start.pastAll front).position :=
    congrArg Place.position hplace
  rw [Lexer.offset_pastAll, Place.start, Nat.zero_add] at hoffset
  rw [Lexer.position_pastAll_start] at hposition
  refine ⟨front, rest, hsource, hoffset, ?_, ?_⟩
  · rw [hposition]
  · rw [hposition]

/-- The last token stands behind a tab, a comment, a carriage return and characters of several
bytes. -/
theorem tokenize_position_mixed :
  let source := "\ta;é\r\n\té-(?x"
  ∃ t ∈ tokenize source, t.lexeme = ⟨.var, "?x"⟩ ∧ t.position = ⟨2, 5⟩ ∧ ∃ front rest,
    source.toList = front ++ (t.text.toList ++ rest) ∧
      t.position.line = 1 + front.count '\n' ∧
      t.position.column = 1 + (front.rtakeWhile (· ≠ '\n')).length
  := by
  intro source
  have hlast : (tokenize source).getLast? = some ⟨.var, "?x", 12, ⟨2, 5⟩⟩ := by
    unfold source
    cbv
  have ht := List.mem_of_getLast? hlast
  obtain ⟨front, rest, hsource, -, hline, hcolumn⟩ := tokenize_position source _ ht
  exact ⟨_, ht, rfl, rfl, front, rest, hsource, hline, hcolumn⟩

end PlanLang
