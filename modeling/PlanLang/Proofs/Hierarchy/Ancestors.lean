import Mathlib.Logic.Relation
import PlanLang.Hierarchy

/-!
# Ancestors

The search for the ancestors of a type finds exactly the numbers that chains of one or more links
lead to.  This holds of every table: circular links do not hold the search up, and a link to a row
that is missing leads no further.
-/

namespace PlanLang

namespace Hierarchy

open Relation (ReflTransGen TransGen)

/-- The number `b` is that of an immediate parent of the type with the number `a`. -/
def Linked (h : Hierarchy) (a b : Nat) : Prop :=
  b ∈ h.parentsOf a

variable {h : Hierarchy} {a b : Nat}

theorem parentsOf_of_lt (ha : a < h.rows.length) :
  h.parentsOf a = h.rows[a].parents
  := by
  simp [parentsOf, ha]

/-- Only the types of the table have parents. -/
theorem Linked.lt_length (hab : h.Linked a b) :
  a < h.rows.length
  := by
  apply Nat.lt_of_not_le
  intro ha
  simp [Linked, parentsOf, List.getElem?_eq_none ha] at hab

/-! ### The search -/

/-- What has been seen is kept. -/
theorem mem_reach_of_mem_seen {pending seen : List Nat} (ha : a ∈ seen) :
  a ∈ h.reach pending seen
  := by
  fun_induction h.reach pending seen with
  | case1 => exact ha
  | case2 _ _ _ _ _ ih => exact ih ha
  | case3 _ _ _ _ _ ih => exact ih (List.mem_cons_of_mem _ ha)
  | case4 _ _ _ _ ih => exact ih ha

/-- What is pending is reached, if it is in the table. -/
theorem mem_reach_of_mem_pending {pending seen : List Nat} (ha : a ∈ pending)
    (hlt : a < h.rows.length) :
  a ∈ h.reach pending seen
  := by
  fun_induction h.reach pending seen with
  | case1 => contradiction
  | case2 seen id pending _ hseen ih =>
    rcases List.mem_cons.mp ha with rfl | ha
    · exact mem_reach_of_mem_seen hseen
    · exact ih ha
  | case3 seen id pending _ _ ih =>
    rcases List.mem_cons.mp ha with rfl | ha
    · exact mem_reach_of_mem_seen List.mem_cons_self
    · exact ih (List.mem_append_right _ ha)
  | case4 seen id pending hid ih =>
    rcases List.mem_cons.mp ha with rfl | ha
    · contradiction
    · exact ih ha

/-- What is reached has been seen before, or a chain of links leads to it from what is pending. -/
theorem exists_of_mem_reach {pending seen : List Nat} (hb : b ∈ h.reach pending seen) :
  b ∈ seen ∨ ∃ a ∈ pending, ReflTransGen h.Linked a b
  := by
  fun_induction h.reach pending seen with
  | case1 => exact .inl hb
  | case2 seen id pending _ _ ih =>
    obtain hb | ⟨a, ha, hab⟩ := ih hb
    · exact .inl hb
    · exact .inr ⟨a, List.mem_cons_of_mem _ ha, hab⟩
  | case3 seen id pending hid _ ih =>
    obtain hb | ⟨a, ha, hab⟩ := ih hb
    · rcases List.mem_cons.mp hb with rfl | hb
      · exact .inr ⟨b, List.mem_cons_self, .refl⟩
      · exact .inl hb
    · rcases List.mem_append.mp ha with ha | ha
      · have hlinked : h.Linked id a := by rwa [Linked, parentsOf_of_lt hid]
        exact .inr ⟨id, List.mem_cons_self, .head hlinked hab⟩
      · exact .inr ⟨a, List.mem_cons_of_mem _ ha, hab⟩
  | case4 seen id pending _ ih =>
    obtain hb | ⟨a, ha, hab⟩ := ih hb
    · exact .inl hb
    · exact .inr ⟨a, List.mem_cons_of_mem _ ha, hab⟩

/-- The parents of what is reached are reached, if they are in the table.  The search keeps the
parents of what it has seen among what it has seen and what is pending. -/
theorem mem_reach_of_linked {pending seen : List Nat}
    (hseen : ∀ a ∈ seen, ∀ b, h.Linked a b → b < h.rows.length → b ∈ seen ∨ b ∈ pending)
    (ha : a ∈ h.reach pending seen) (hab : h.Linked a b) (hb : b < h.rows.length) :
  b ∈ h.reach pending seen
  := by
  fun_induction h.reach pending seen with
  | case1 seen =>
    obtain hb | hb := hseen a ha b hab hb
    · exact hb
    · contradiction
  | case2 seen id pending _ hid ih =>
    apply ih _ ha
    intro c hc d hcd hd
    obtain hd | hd := hseen c hc d hcd hd
    · exact .inl hd
    · rcases List.mem_cons.mp hd with rfl | hd
      · exact .inl hid
      · exact .inr hd
  | case3 seen id pending hid _ ih =>
    apply ih _ ha
    intro c hc d hcd hd
    rcases List.mem_cons.mp hc with rfl | hc
    · rw [Linked, parentsOf_of_lt hid] at hcd
      exact .inr (List.mem_append_left _ hcd)
    · obtain hd | hd := hseen c hc d hcd hd
      · exact .inl (List.mem_cons_of_mem _ hd)
      · rcases List.mem_cons.mp hd with rfl | hd
        · exact .inl List.mem_cons_self
        · exact .inr (List.mem_append_right _ hd)
  | case4 seen id pending hid ih =>
    apply ih _ ha
    intro c hc d hcd hd
    obtain hd' | hd' := hseen c hc d hcd hd
    · exact .inl hd'
    · rcases List.mem_cons.mp hd' with rfl | hd'
      · contradiction
      · exact .inr hd'

/-- From one type the search reaches the types of the table that a chain of links leads to. -/
theorem mem_reach_of_reflTransGen (hab : ReflTransGen h.Linked a b) (hb : b < h.rows.length) :
  b ∈ h.reach [a] []
  := by
  induction hab with
  | refl => exact mem_reach_of_mem_pending List.mem_cons_self hb
  | tail _ hbc ih => exact mem_reach_of_linked nofun (ih hbc.lt_length) hbc hb

/-- The ancestors of a type are the numbers that a chain of one or more links leads to. -/
theorem mem_ancestors_iff :
  b ∈ h.ancestors a ↔ TransGen h.Linked a b
  := by
  rw [ancestors, List.mem_flatMap, TransGen.tail'_iff]
  constructor
  · rintro ⟨c, hc, hcb⟩
    obtain hc | ⟨a', ha', hac⟩ := exists_of_mem_reach hc
    · contradiction
    · obtain rfl := List.mem_singleton.mp ha'
      exact ⟨c, hac, hcb⟩
  · rintro ⟨c, hac, hcb⟩
    exact ⟨c, mem_reach_of_reflTransGen hac (Linked.lt_length hcb), hcb⟩

/-! ### Subtypes -/

/-- The type with the number `a` counts as a subtype of the one with the number `b`: they are the
same, or `b` is that of `object`, or a chain of links leads from `a` to `b`. -/
def Below (h : Hierarchy) (a b : Nat) : Prop :=
  a = b ∨ h.nameOf? b = some "object" ∨ TransGen h.Linked a b

/-- If no parent is missing, then no ancestor is. -/
theorem ancestor_lt (hparents : ∀ a b, h.Linked a b → b < h.rows.length) :
  ∀ b ∈ h.ancestors a, b < h.rows.length
  := by
  intro b hb
  obtain ⟨c, -, hlinked⟩ := TransGen.tail'_iff.mp (mem_ancestors_iff.mp hb)
  exact hparents c b hlinked

/-- If no parent is missing, then the question for a subtype is answered. -/
theorem exists_isSubtype?_of_parent_lt (hparents : ∀ a b, h.Linked a b → b < h.rows.length)
    (m n : String) :
  ∃ answer, h.isSubtype? m n = some answer ∧
    (answer ↔ ∃ a b, h.get? m = some a ∧ h.get? n = some b ∧ h.Below a b)
  := by
  rw [isSubtype?]
  cases hm : h.get? m with
  | none => exact ⟨false, rfl, by simp⟩
  | some a =>
    cases hn : h.get? n with
    | none => exact ⟨false, rfl, by simp⟩
    | some b =>
      have hall : (h.ancestors a).all (· < h.rows.length) := by
        simpa using ancestor_lt hparents
      simp only [hall, if_true, Below, ← mem_ancestors_iff, ← or_assoc]
      by_cases hroot : a = b ∨ h.nameOf? b = some "object"
      · exact ⟨true, by simp [hroot]⟩
      · by_cases hancestor : b ∈ h.ancestors a
        · exact ⟨true, by simp [hroot, hancestor]⟩
        · exact ⟨false, by simp [hroot, hancestor]⟩

end Hierarchy

end PlanLang
