import PlanLang.Proofs.Token.Word

/-!
# Sources that are cut off or go on

A source that is cut off behind one of its tokens has the tokens up to there.  A source that goes on
in a new line has further tokens, and these are spelled like those of the lines that come after it.
-/

namespace PlanLang

/-! ### The longest part that satisfies a condition -/

/-- What comes behind the longest part does not make it longer, even if only some of it is there. -/
theorem takeWhile_append_of_isPrefix {α : Type} {p : α → Bool} {as front : List α}
    (h : front <+: as.drop (as.takeWhile p).length) :
  (as.takeWhile p ++ front).takeWhile p = as.takeWhile p
  := by
  have hall : ∀ a ∈ as.takeWhile p, p a := List.all_eq_true.mp List.all_takeWhile
  have hfront : front.takeWhile p = [] := by
    cases front with
    | nil => rfl
    | cons a front =>
      obtain ⟨back, hback⟩ := h
      have hsplit : as.takeWhile p ++ as.dropWhile p = as := List.takeWhile_append_dropWhile
      have hsame : as.takeWhile p ++ as.dropWhile p = as.takeWhile p ++ (a :: front ++ back) := by
        rw [hsplit, hback, List.prefix_iff_eq_append.mp (List.takeWhile_prefix p)]
      have hdrop : as.dropWhile p = a :: front ++ back := List.append_cancel_left hsame
      have hnot := List.head?_dropWhile_not p as
      rw [hdrop] at hnot
      have ha : p a = false := by simpa using hnot
      rw [List.takeWhile_cons, ha]
      rfl
  rw [List.takeWhile_append_of_pos hall, hfront, List.append_nil]

/-- The longest part ends in front of an element that does not satisfy the condition. -/
theorem takeWhile_append_cons {α : Type} {p : α → Bool} {a : α} (ha : p a = false)
    (as bs : List α) :
  (as ++ a :: bs).takeWhile p = as.takeWhile p
  := by
  induction as with
  | nil => simp [ha]
  | cons b as ih => simp only [List.cons_append, List.takeWhile_cons, ih]

namespace Lexer

/-! ### Lexemes of characters that are cut off or go on -/

theorem isPrefix_of_lexeme (c : Char) (cs : List Char) :
  (lexeme c cs).2 <+: cs
  := by
  unfold lexeme
  split_ifs
  all_goals first | apply List.nil_prefix | apply List.takeWhile_prefix

theorem startsName_of_isPrefix {front cs : List Char} (h : front <+: cs)
    (hfront : startsName front) :
  startsName cs
  := by
  obtain ⟨back, rfl⟩ := h
  cases front with
  | nil => contradiction
  | cons c front => exact hfront

theorem startsName_takeWhile_append {cs : List Char} (h : startsName cs) (front : List Char) :
  startsName (cs.takeWhile continuesName ++ front)
  := by
  cases cs with
  | nil => contradiction
  | cons c cs =>
    have hc : c.isAlpha := by simpa [startsName] using h
    rw [List.takeWhile_cons, if_pos (continuesName_of_isAlpha hc)]
    simpa [startsName] using hc

/-- A token is cut in the same way if the source is cut off behind it. -/
theorem lexeme_of_isPrefix {c : Char} {cs tail : List Char} {kind : TokenKind}
    (h : lexeme c cs = (kind, tail)) {front : List Char} (hfront : front <+: cs.drop tail.length) :
  lexeme c (tail ++ front) = (kind, tail)
  := by
  unfold lexeme at h
  split_ifs at h with hopening hclosing hdash hequals hvar hkeyword hletter
  all_goals
    obtain ⟨rfl, rfl⟩ := Prod.mk.inj h
    clear h
  · simp [lexeme, hopening]
  · simp [lexeme, hclosing]
  · simp [lexeme, hdash]
  · simp [lexeme, hequals]
  · rw [Bool.and_eq_true, decide_eq_true_eq] at hvar
    simp [lexeme, hvar.1, startsName_takeWhile_append hvar.2, takeWhile_append_of_isPrefix hfront]
  · rw [Bool.and_eq_true, decide_eq_true_eq] at hkeyword
    simp [lexeme, hkeyword.1, startsName_takeWhile_append hkeyword.2,
      takeWhile_append_of_isPrefix hfront]
  · simp [lexeme, ne_of_isAlpha hletter, hletter, takeWhile_append_of_isPrefix hfront]
  · -- a sign that no name follows is not followed by one where the source is cut off
    have hnot : startsName cs = false → startsName front = false := by
      intro hcs
      apply Bool.eq_false_of_not_eq_true
      intro hstarts
      have hall : startsName cs := startsName_of_isPrefix hfront hstarts
      rw [hall] at hcs
      contradiction
    by_cases hsign : c = '?' ∨ c = ':'
    · have hfalse : startsName front = false := by
        apply hnot
        rcases hsign with rfl | rfl
        · simpa using hvar
        · simpa using hkeyword
      simp [lexeme, hopening, hclosing, hdash, hequals, hfalse, hletter]
    · rw [not_or] at hsign
      simp [lexeme, hopening, hclosing, hdash, hequals, hsign, hletter]

/-- A token is cut in the same way if the source goes on in a new line. -/
theorem lexeme_append_newline (c : Char) (cs ds : List Char) :
  lexeme c (cs ++ '\n' :: ds) = lexeme c cs
  := by
  have hstarts : startsName (cs ++ '\n' :: ds) = startsName cs := by
    cases cs <;> rfl
  rw [lexeme, hstarts, takeWhile_append_cons (by decide)]
  rfl

/-! ### Tokens of characters that are cut off or go on -/

theorem tokens_blank {c : Char} (hblank : isBlank c) (p : Place) (cs : List Char) :
  tokens p (c :: cs) = tokens (p.past c) cs
  := by
  rw [tokens, if_pos hblank]

/-- A comment is passed over. -/
theorem tokens_comment {comment rest : List Char}
    (h : (comment ++ rest).takeWhile (· != '\n') = comment) (p : Place) :
  tokens p (';' :: (comment ++ rest)) = tokens (p.pastAll (';' :: comment)) rest
  := by
  rw [tokens, if_neg (by decide), if_pos rfl]
  simp only [h, List.drop_left]

/-- A token is followed by the tokens of what comes behind its characters. -/
theorem tokens_lexeme {c : Char} (hblank : ¬isBlank c) (hcomment : c ≠ ';') {kind : TokenKind}
    {tail rest : List Char} (h : lexeme c (tail ++ rest) = (kind, tail)) (p : Place) :
  tokens p (c :: (tail ++ rest)) =
    ⟨kind, String.ofList (c :: tail), p.offset, p.position⟩ ::
      tokens (p.pastAll (c :: tail)) rest
  := by
  rw [tokens, if_neg hblank, if_neg hcomment]
  simp only [h, List.drop_left]

theorem pastAll_append (p : Place) (cs ds : List Char) :
  p.pastAll (cs ++ ds) = (p.pastAll cs).pastAll ds
  := List.foldl_append

theorem offset_pastAll (p : Place) (cs : List Char) :
  (p.pastAll cs).offset = p.offset + (String.ofList cs).utf8ByteSize
  := by
  rw [String.utf8ByteSize_ofList]
  induction cs generalizing p with
  | nil => rfl
  | cons c cs ih =>
    have hfirst : p.pastAll (c :: cs) = (p.past c).pastAll cs := rfl
    rw [hfirst, ih, String.utf8Len_cons]
    simp only [Place.past]
    omega

/-- Characters are cut into tokens, where the first of them stands at a place.  Each case says what
the characters are that one step of cutting takes. -/
inductive Cuts : Place → List Char → List Token → Prop where
  | nil (p : Place) :
    Cuts p [] []
  | blank {p : Place} {c : Char} {cs : List Char} {ts : List Token} (hblank : isBlank c)
    (h : Cuts (p.past c) cs ts) :
    Cuts p (c :: cs) ts
  | comment {p : Place} {comment rest : List Char} {ts : List Token}
    (hcomment : (comment ++ rest).takeWhile (· != '\n') = comment)
    (h : Cuts (p.pastAll (';' :: comment)) rest ts) :
    Cuts p (';' :: (comment ++ rest)) ts
  | token {p : Place} {c : Char} {kind : TokenKind} {tail rest : List Char} {ts : List Token}
    (hblank : ¬isBlank c) (hcomment : c ≠ ';') (hlexeme : lexeme c (tail ++ rest) = (kind, tail))
    (h : Cuts (p.pastAll (c :: tail)) rest ts) :
    Cuts p (c :: (tail ++ rest)) (⟨kind, String.ofList (c :: tail), p.offset, p.position⟩ :: ts)

theorem cuts_tokens (p : Place) (cs : List Char) :
  Cuts p cs (tokens p cs)
  := by
  induction p, cs using tokens.induct with
  | case1 p =>
    rw [tokens]
    exact .nil p
  | case2 p c cs hblank ih =>
    rw [tokens_blank hblank]
    exact .blank hblank ih
  | case3 p cs comment hblank ih =>
    obtain ⟨rest, hsplit⟩ : comment <+: cs := List.takeWhile_prefix _
    have hcomment : (comment ++ rest).takeWhile (· != '\n') = comment := by rw [hsplit]
    rw [← hsplit, List.drop_left] at ih
    rw [← hsplit, tokens_comment hcomment]
    exact .comment hcomment ih
  | case4 p c cs hblank hcomment kind tail hlexeme ih =>
    have hprefix := isPrefix_of_lexeme c cs
    rw [hlexeme] at hprefix
    obtain ⟨rest, rfl⟩ := hprefix
    rw [List.drop_left] at ih
    rw [tokens_lexeme hblank hcomment hlexeme]
    exact .token hblank hcomment hlexeme ih

/-- Characters that are cut off behind a token have the tokens up to this one. -/
theorem Cuts.exists_front {p : Place} {cs : List Char} {ts before after : List Token} {t : Token}
    (h : Cuts p cs ts) (hts : ts = before ++ t :: after) :
  ∃ front back, cs = front ++ back ∧ t.stop = (p.pastAll front).offset ∧
    tokens p front = before ++ [t]
  := by
  induction h generalizing before with
  | nil p => simp at hts
  | @blank p c cs ts hblank _ ih =>
    obtain ⟨front, back, rfl, hstop, hfront⟩ := ih hts
    refine ⟨c :: front, back, rfl, hstop, ?_⟩
    rw [tokens_blank hblank, hfront]
  | @comment p comment rest ts hcomment _ ih =>
    obtain ⟨front, back, rfl, hstop, hfront⟩ := ih hts
    have hcut : (comment ++ front).takeWhile (· != '\n') = comment := by
      have hprefix : front <+: (comment ++ (front ++ back)).drop
          ((comment ++ (front ++ back)).takeWhile (· != '\n')).length := by
        rw [hcomment, List.drop_left]
        exact ⟨back, rfl⟩
      have hlongest := takeWhile_append_of_isPrefix hprefix
      rwa [hcomment] at hlongest
    refine ⟨';' :: (comment ++ front), back, by simp, ?_, ?_⟩
    · rw [hstop, ← pastAll_append]
      rfl
    · rw [tokens_comment hcut, hfront]
  | @token p c kind tail rest ts hblank hcomment hlexeme _ ih =>
    have hcut : ∀ {front}, front <+: rest → lexeme c (tail ++ front) = (kind, tail) := by
      intro front hfront
      apply lexeme_of_isPrefix hlexeme
      rwa [List.drop_left]
    cases before with
    | nil =>
      obtain rfl := (List.cons.inj hts).1
      refine ⟨c :: (tail ++ []), rest, by simp, ?_, ?_⟩
      · rw [List.append_nil, offset_pastAll, Token.stop]
      · rw [tokens_lexeme hblank hcomment (hcut List.nil_prefix), tokens]
        rfl
    | cons s before =>
      obtain ⟨rfl, hrest⟩ := List.cons.inj hts
      obtain ⟨front, back, rfl, hstop, hfront⟩ := ih hrest
      refine ⟨c :: (tail ++ front), back, by simp, ?_, ?_⟩
      · rw [hstop, ← pastAll_append]
        rfl
      · rw [tokens_lexeme hblank hcomment (hcut ⟨back, rfl⟩), hfront]
        rfl

/-- Characters that go on in a new line have the tokens of the lines before and those of the lines
after. -/
theorem Cuts.tokens_append_newline {p : Place} {cs : List Char} {ts : List Token}
    (h : Cuts p cs ts) (ds : List Char) :
  tokens p (cs ++ '\n' :: ds) = ts ++ tokens (p.pastAll (cs ++ ['\n'])) ds
  := by
  induction h with
  | nil p =>
    rw [List.nil_append, tokens_blank (by decide)]
    rfl
  | blank hblank _ ih =>
    rw [List.cons_append, tokens_blank hblank, ih]
    rfl
  | @comment p comment rest ts hcomment _ ih =>
    have hgoes : (comment ++ (rest ++ '\n' :: ds)).takeWhile (· != '\n') = comment := by
      rw [← List.append_assoc, takeWhile_append_cons (by decide), hcomment]
    rw [List.cons_append, List.append_assoc, tokens_comment hgoes, ih, ← pastAll_append]
    simp
  | @token p c kind tail rest ts hblank hcomment hlexeme _ ih =>
    have hgoes : lexeme c (tail ++ (rest ++ '\n' :: ds)) = (kind, tail) := by
      rw [← List.append_assoc, lexeme_append_newline, hlexeme]
    rw [List.cons_append, List.append_assoc, tokens_lexeme hblank hcomment hgoes, ih,
      ← pastAll_append]
    simp

end Lexer

/-! ### Sources -/

/-- The source up to the end of its first `k` tokens. -/
def cutOff (source : String) (k : Nat) : String :=
  String.Pos.Raw.extract source 0 ⟨(((tokenize source).take k).getLast?.map Token.stop).getD 0⟩

/-- A source that is cut off at the end of some characters consists of these. -/
theorem extract_eq {source : String} {front back : List Char} (h : source.toList = front ++ back) :
  String.Pos.Raw.extract source 0 ⟨(String.ofList front).utf8ByteSize⟩ = String.ofList front
  := by
  have hsource : source = String.ofList ([] ++ front ++ back) := by
    rw [List.nil_append, ← h, String.ofList_toList]
  have hextract := String.extract_of_valid [] front back
  rw [← hsource, String.utf8Len_nil, Nat.zero_add] at hextract
  rw [String.utf8ByteSize_ofList]
  exact hextract

/-- A source that is cut off has the tokens up to the cut. -/
theorem tokenize_cutOff (source : String) (k : Nat) :
  tokenize (cutOff source k) = (tokenize source).take k
  := by
  rw [cutOff]
  generalize htake : (tokenize source).take k = ts
  rcases List.eq_nil_or_concat' ts with rfl | ⟨before, t, rfl⟩
  · have hempty : String.Pos.Raw.extract source 0 ⟨0⟩ = String.ofList [] :=
      extract_eq (List.nil_append _).symm
    rw [List.getLast?_nil, Option.map_none, Option.getD_none, hempty, tokenize,
      String.toList_ofList, Lexer.tokens]
  · have hsplit : tokenize source = before ++ t :: (tokenize source).drop k := by
      conv_lhs => rw [← List.take_append_drop k (tokenize source), htake]
      simp
    obtain ⟨front, back, hsource, hstop, hfront⟩ :=
      (Lexer.cuts_tokens .start source.toList).exists_front hsplit
    rw [Lexer.offset_pastAll, Place.start, Nat.zero_add] at hstop
    have hextract := extract_eq hsource
    rw [List.getLast?_concat, Option.map_some, Option.getD_some, hstop, hextract, tokenize,
      String.toList_ofList, hfront]

/-- A source that goes on in a new line has further tokens, which are spelled like those of the text
in the lines that come after it. -/
theorem exists_tokenize_newline (source extra : String) :
  ∃ ts, tokenize (source ++ "\n" ++ extra) = tokenize source ++ ts ∧
    ts.map Token.lexeme = (tokenize extra).map Token.lexeme
  := by
  have hlines : (source ++ "\n" ++ extra).toList = source.toList ++ '\n' :: extra.toList := by
    simp
  have hcut := (Lexer.cuts_tokens .start source.toList).tokens_append_newline extra.toList
  rw [← hlines] at hcut
  exact ⟨_, hcut, Lexer.map_lexeme_tokens_eq _ .start extra.toList⟩

end PlanLang
