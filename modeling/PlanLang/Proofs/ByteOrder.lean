import Mathlib

/-!
# The order of words

Words are ordered by their characters.  This is the order of the bytes of their text in UTF-8, for
the bytes of a greater character are greater, whatever comes behind.
-/

namespace PlanLang

/-- The bytes of a word in UTF-8. -/
def bytes (s : String) : List UInt8 :=
  s.toUTF8.data.toList

theorem bytes_eq_flatMap (s : String) :
  bytes s = s.toList.flatMap String.utf8EncodeChar
  := by
  rw [bytes, String.toUTF8, ← String.utf8Encode_toList, List.utf8Encode,
    List.toList_data_toByteArray]

theorem ofNat_cons_lt_iff {a b : Nat} (ha : a < 256) (hb : b < 256) (bs bs' : List UInt8) :
  UInt8.ofNat a :: bs < UInt8.ofNat b :: bs' ↔ a < b ∨ a = b ∧ bs < bs'
  := by
  have heq : UInt8.ofNat a = UInt8.ofNat b ↔ a = b := by
    rw [← UInt8.toNat_inj, UInt8.toNat_ofNat_of_lt' ha, UInt8.toNat_ofNat_of_lt' hb]
  rw [List.cons_lt_cons_iff, UInt8.ofNat_lt_iff_lt ha hb, heq]

/-- The bytes of a character decide over the order before what comes behind them. -/
theorem utf8EncodeChar_append_lt {c d : Char} (h : c < d) (bs bs' : List UInt8) :
  String.utf8EncodeChar c ++ bs < String.utf8EncodeChar d ++ bs'
  := by
  have hlt : c.val.toNat < d.val.toNat := h
  have hd : d.val.toNat < 0x110000 := by
    have hvalid := d.valid
    rw [UInt32.isValidChar, Nat.isValidChar] at hvalid
    omega
  -- the digits of a code to the base 64, of which the first needs no more than three bits
  have hdigits : ∀ k < 0x110000,
      k / 64 / 64 = k / 4096 ∧ k / 4096 / 64 = k / 262144 ∧ k / 262144 % 8 = k / 262144 := by
    intro k hk
    rw [Nat.div_div_eq_div_mul, Nat.div_div_eq_div_mul, Nat.mod_eq_of_lt (by omega)]
    exact ⟨rfl, rfl, rfl⟩
  have hcdigits := hdigits _ (hlt.trans hd)
  have hddigits := hdigits _ hd
  simp only [String.utf8EncodeChar]
  generalize c.val.toNat = m at *
  generalize d.val.toNat = n at *
  -- the first byte tells the number of bytes, and with equally many of them the digits decide
  split_ifs <;>
    simp (disch := omega) only [List.cons_append, List.nil_append, ofNat_cons_lt_iff] <;> omega

/-- Words are in the order of their bytes. -/
theorem bytes_lt {s t : String} (h : s < t) :
  bytes s < bytes t
  := by
  rw [bytes_eq_flatMap, bytes_eq_flatMap]
  have hlex : List.Lex (· < ·) s.toList t.toList := String.lt_iff_toList_lt.mp h
  generalize s.toList = cs at hlex
  generalize t.toList = ds at hlex
  induction hlex with
  | @nil d ds =>
    obtain ⟨b, bs, hd⟩ := List.exists_cons_of_ne_nil (String.utf8EncodeChar_ne_nil (c := d))
    rw [List.flatMap_nil, List.flatMap_cons, hd]
    apply List.nil_lt_cons
  | rel hcd =>
    rw [List.flatMap_cons, List.flatMap_cons]
    apply utf8EncodeChar_append_lt hcd
  | cons _ ih =>
    rw [List.flatMap_cons, List.flatMap_cons]
    apply List.append_left_lt ih

end PlanLang
