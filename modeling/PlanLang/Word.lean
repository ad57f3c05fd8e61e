/-!
# Words

Names and keywords are compared without regard to the case of ASCII letters, and names are
stored in lower case. The lower-case form of a word is `String.toLower`, which changes
nothing but the letters `A` to `Z`.
-/

namespace PlanLang

/-- Two words are the same when they differ at most in the case of ASCII letters. -/
def sameWord (a b : String) : Bool :=
  a.toLower == b.toLower

/-- Two words are the same if and only if they have the same lower-case form. -/
theorem sameWord_iff {a b : String} :
  sameWord a b ↔ a.toLower = b.toLower
  := beq_iff_eq

theorem sameWord_refl (a : String) :
  sameWord a a
  := sameWord_iff.mpr rfl

theorem sameWord_symm {a b : String} (hab : sameWord a b) :
  sameWord b a
  := sameWord_iff.mpr (sameWord_iff.mp hab).symm

theorem sameWord_trans {a b c : String} (hab : sameWord a b) (hbc : sameWord b c) :
  sameWord a c
  := sameWord_iff.mpr ((sameWord_iff.mp hab).trans (sameWord_iff.mp hbc))

/-- Words that are the same are the same as the same words. -/
theorem sameWord_congr {a b : String} (hab : sameWord a b) :
  sameWord a = sameWord b
  := by
  funext w
  rw [sameWord, sameWord, sameWord_iff.mp hab]

/-- Lowering a word lowers each of its characters. -/
theorem toList_toLower (s : String) :
  s.toLower.toList = s.toList.map Char.toLower
  := String.toList_map

/-- A lower-case character is its own lower-case form. -/
theorem toLower_toLower_char (c : Char) :
  c.toLower.toLower = c.toLower
  := by
  by_cases h : c.val ≥ 'A'.val ∧ c.val ≤ 'Z'.val
  · have hv : c.toLower.val = c.val + 32 := congrArg Char.val (dif_pos h)
    have hz : ¬ c.toLower.val ≤ 'Z'.val := by
      rw [hv, UInt32.le_iff_toNat_le, UInt32.toNat_add]
      have h1 := UInt32.le_iff_toNat_le.mp h.1
      have h2 := UInt32.le_iff_toNat_le.mp h.2
      simp at h1 h2 ⊢
      omega
    exact dif_neg fun hd => hz hd.2
  · have hc : c.toLower = c := dif_neg h
    rw [hc, hc]

/-- A lower-case word is its own lower-case form. -/
theorem toLower_toLower (s : String) :
  s.toLower.toLower = s.toLower
  := by
  rw [← String.toList_inj, toList_toLower, toList_toLower, List.map_map]
  exact List.map_congr_left fun c _ => toLower_toLower_char c

end PlanLang
