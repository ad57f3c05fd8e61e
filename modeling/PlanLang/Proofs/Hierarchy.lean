import Mathlib
import PlanLang.Proofs.Hierarchy.Declarations

/-!
# Subtypes

Whether a type is a subtype of another, in the table of a list of declarations, is decided by what
the declarations say: equal names and `object` as parent apart, a chain of declarations has to lead
from the one to the other.  Subtypes of subtypes are subtypes, as long as a type that is below
`object` without a declaration is not followed further, through a parent of `object` itself.
-/

namespace PlanLang

namespace Hierarchy

open Relation (TransGen)
open TypeDeclaration (Known Derives)

/-! ### Orders that do not matter -/

/-- The two tables have the same types in the same order, with the same parents in any order. -/
def IsReordering (h h' : Hierarchy) : Prop :=
  List.Forall₂ (fun row row' => row.name = row'.name ∧ row.parents.Perm row'.parents)
    h.rows h'.rows

namespace IsReordering

variable {h h' : Hierarchy}

theorem map_name_eq (hr : h.IsReordering h') :
  h.rows.map Row.name = h'.rows.map Row.name
  := by
  obtain ⟨rows⟩ := h
  obtain ⟨rows'⟩ := h'
  simp only [IsReordering] at hr
  induction hr with
  | nil => rfl
  | cons hrow _ ih => rw [List.map_cons, List.map_cons, hrow.1, ih]

theorem get?_eq (hr : h.IsReordering h') (n : String) :
  h.get? n = h'.get? n
  := by
  rw [get?_eq_findIdx?_map_name, get?_eq_findIdx?_map_name, hr.map_name_eq]

theorem nameOf?_eq (hr : h.IsReordering h') (a : Nat) :
  h.nameOf? a = h'.nameOf? a
  := by
  rw [nameOf?, nameOf?, ← List.getElem?_map, ← List.getElem?_map, hr.map_name_eq]

theorem linked_iff (hr : h.IsReordering h') (a b : Nat) :
  h.Linked a b ↔ h'.Linked a b
  := by
  obtain ⟨rows⟩ := h
  obtain ⟨rows'⟩ := h'
  simp only [IsReordering] at hr
  induction hr generalizing a with
  | nil => rfl
  | cons hrow _ ih =>
    cases a with
    | zero => exact hrow.2.mem_iff
    | succ a => exact ih a

/-- The order in which parents are listed does not matter for subtypes. -/
theorem isSubtype?_eq (hr : h.IsReordering h') (m n : String) :
  h.isSubtype? m n = h'.isSubtype? m n
  := by
  have hlinked : h.Linked = h'.Linked := by
    funext a b
    exact propext (hr.linked_iff a b)
  have hancestors : ∀ a b, b ∈ h.ancestors a ↔ b ∈ h'.ancestors a := by
    intro a b
    rw [mem_ancestors_iff, mem_ancestors_iff, hlinked]
  have hlength : h.rows.length = h'.rows.length := hr.length_eq
  have hall : ∀ a, (h.ancestors a).all (· < h.rows.length)
      = (h'.ancestors a).all (· < h'.rows.length) := by
    intro a
    rw [Bool.eq_iff_iff, List.all_eq_true, List.all_eq_true, hlength]
    exact forall_congr' fun b => imp_congr_left (hancestors a b)
  simp only [isSubtype?, hr.get?_eq, hr.nameOf?_eq, hancestors, hall]

end IsReordering

/-! ### Chains of declarations -/

/-- In the table of a list of declarations the question for a subtype is always answered.  A type is
a subtype of another if and only if both are known, and they are the same, or the parent is
`object`, or a chain of one or more declarations leads from the child to the parent.  The order of
the declarations does not matter, and neither does the order in which the table lists parents. -/
theorem isSubtype?_ofDeclarations (ds : List TypeDeclaration) (child parent : String) :
  (∃ answer, (ofDeclarations ds).isSubtype? child parent = some answer ∧
    (answer ↔ Known ds child ∧ Known ds parent ∧
      (sameWord child parent ∨ sameWord parent "object" ∨
        TransGen (Derives ds) child parent))) ∧
  (∀ ds' : List TypeDeclaration, ds'.Perm ds →
    (ofDeclarations ds').isSubtype? child parent = (ofDeclarations ds).isSubtype? child parent) ∧
  (∀ h : Hierarchy, h.IsReordering (ofDeclarations ds) →
    h.isSubtype? child parent = (ofDeclarations ds).isSubtype? child parent)
  := by
  have hanswer := (records_ofDeclarations ds).exists_isSubtype? child parent
  refine ⟨hanswer, ?_, fun h hr => hr.isSubtype?_eq child parent⟩
  intro ds' hperm
  have hknown : ∀ n, Known ds' n ↔ Known ds n := by
    intro n
    simp only [Known, hperm.mem_iff]
  have hderives : Derives ds' = Derives ds := by
    funext m n
    simp only [Derives, hperm.mem_iff]
  obtain ⟨answer, hsome, hiff⟩ := hanswer
  obtain ⟨answer', hsome', hiff'⟩ := (records_ofDeclarations ds').exists_isSubtype? child parent
  rw [hknown, hknown, hderives, ← hiff, ← Bool.eq_iff_iff] at hiff'
  rw [hsome, hsome', hiff']

/-- Two types that derive from each other, one of them from two types at once, declared in another
order and with the parents in another order. -/
theorem isSubtype?_ofDeclarations_circular :
  let truck : TypeDeclaration := ⟨"Truck", (Ty.primitive "tool").insert "vehicle"⟩
  let vehicle : TypeDeclaration := ⟨"vehicle", .primitive "truck"⟩
  let h : Hierarchy :=
    ⟨[⟨"object", []⟩, ⟨"truck", [2, 3]⟩, ⟨"tool", []⟩, ⟨"vehicle", [1]⟩]⟩
  [vehicle, truck].Perm [truck, vehicle] ∧ h.IsReordering (ofDeclarations [truck, vehicle]) ∧
    (ofDeclarations [vehicle, truck]).isSubtype? "VEHICLE" "tool" = some true ∧
    h.isSubtype? "VEHICLE" "tool" = some true
  := by
  intro truck vehicle h
  have hperm : [vehicle, truck].Perm [truck, vehicle] := .swap _ _ _
  have htable : ofDeclarations [truck, vehicle] =
      ⟨[⟨"object", []⟩, ⟨"truck", [3, 2]⟩, ⟨"tool", []⟩, ⟨"vehicle", [1]⟩]⟩ := by
    cbv
  have hreordering : h.IsReordering (ofDeclarations [truck, vehicle]) := by
    rw [htable]
    exact .cons (by decide) (.cons (by decide) (.cons (by decide) (.cons (by decide) .nil)))
  have hanswer : (ofDeclarations [truck, vehicle]).isSubtype? "VEHICLE" "tool" = some true := by
    cbv
  obtain ⟨-, horder, hparents⟩ := isSubtype?_ofDeclarations [truck, vehicle] "VEHICLE" "tool"
  exact ⟨hperm, hreordering, (horder _ hperm).trans hanswer, (hparents _ hreordering).trans hanswer⟩

/-! ### Subtypes of subtypes -/

/-- What derives from what does not depend on how the names are written. -/
theorem transGen_derives_congr (ds : List TypeDeclaration) {m m' n n' : String}
    (hm : sameWord m m') (hn : sameWord n n') (hmn : TransGen (Derives ds) m n) :
  TransGen (Derives ds) m' n'
  := by
  have hr := records_ofDeclarations ds
  obtain ⟨k, ⟨d, hd, hname, -⟩, -⟩ := Relation.TransGen.head'_iff.mp hmn
  obtain ⟨a, ha⟩ := (hr.known_iff m).mp (.inr ⟨d, hd, .inl hname⟩)
  obtain ⟨b, hb, hab⟩ := hr.exists_of_transGen hmn ha
  rw [get?_congr hm] at ha
  rw [get?_congr hn] at hb
  exact hr.transGen_of_linked hab ha hb

/-- A subtype of a subtype is a subtype.  The step from a type to `object` and on to a parent that
`object` itself is given is an exception, where the type is not `object` and no declaration leads
from it to `object`. -/
theorem isSubtype?_trans (ds : List TypeDeclaration) {a b c : String}
    (hab : (ofDeclarations ds).isSubtype? a b = some true)
    (hbc : (ofDeclarations ds).isSubtype? b c = some true)
    (hobject : sameWord b "object" →
      sameWord a "object" ∨ TransGen (Derives ds) a "object" ∨ sameWord c "object") :
  (ofDeclarations ds).isSubtype? a c = some true
  := by
  have hiff := (records_ofDeclarations ds).isSubtype?_eq_true_iff
  rw [hiff] at hab hbc ⊢
  obtain ⟨ha, hb, hab⟩ := hab
  obtain ⟨-, hc, hbc⟩ := hbc
  refine ⟨ha, hc, ?_⟩
  rcases hbc with hbc | hc | hbc
  · rcases hab with hab | hb | hab
    · exact .inl (sameWord_trans hab hbc)
    · exact .inr (.inl (sameWord_trans (sameWord_symm hbc) hb))
    · exact .inr (.inr (transGen_derives_congr ds (sameWord_refl a) hbc hab))
  · exact .inr (.inl hc)
  · rcases hab with hab | hb | hab
    · exact .inr (.inr (transGen_derives_congr ds (sameWord_symm hab) (sameWord_refl c) hbc))
    · rcases hobject hb with ha | ha | hc
      · have hba : sameWord b a := sameWord_trans hb (sameWord_symm ha)
        exact .inr (.inr (transGen_derives_congr ds hba (sameWord_refl c) hbc))
      · have hab := transGen_derives_congr ds (sameWord_refl a) (sameWord_symm hb) ha
        exact .inr (.inr (hab.trans hbc))
      · exact .inr (.inl hc)
    · exact .inr (.inr (hab.trans hbc))

/-- A type that a declaration puts below `object`, which has a parent. -/
theorem isSubtype?_trans_object :
  let ds : List TypeDeclaration := [⟨"object", .primitive "thing"⟩, ⟨"block", .primitive "object"⟩]
  (ofDeclarations ds).isSubtype? "block" "object" = some true ∧
    (ofDeclarations ds).isSubtype? "object" "thing" = some true ∧
    TransGen (Derives ds) "block" "object" ∧
    (ofDeclarations ds).isSubtype? "block" "thing" = some true
  := by
  intro ds
  have hblock : (ofDeclarations ds).isSubtype? "block" "object" = some true := by cbv
  have hthing : (ofDeclarations ds).isSubtype? "object" "thing" = some true := by cbv
  have hderives : Derives ds "block" "object" :=
    ⟨⟨"block", .primitive "object"⟩, by simp [ds], by decide +kernel, by decide +kernel⟩
  have hchain := TransGen.single hderives
  exact ⟨hblock, hthing, hchain, isSubtype?_trans ds hblock hthing fun _ => .inr (.inl hchain)⟩

/-- A type that is known as a parent only is a subtype of `object`, but not of the parent that
`object` is given. -/
theorem isSubtype?_not_trans :
  let ds : List TypeDeclaration := [⟨"object", .primitive "thing"⟩, ⟨"block", .primitive "shape"⟩]
  (ofDeclarations ds).isSubtype? "shape" "object" = some true ∧
    (ofDeclarations ds).isSubtype? "object" "thing" = some true ∧
    (ofDeclarations ds).isSubtype? "shape" "thing" = some false
  := by
  intro ds
  exact ⟨by cbv, by cbv, by cbv⟩

end Hierarchy

end PlanLang
