import PlanLang.Word

/-!
# Types

A type is a non-empty set of type names: a single name, or several in `(either a b)`, whose
objects are those of any of the names. The names are kept in lower case and in increasing
order, so that equal sets are equal types.
-/

namespace PlanLang

/-- The list with `name` put in its place; an increasing list stays increasing, and a name
that is there already is not repeated. -/
def insertName (name : String) : List String → List String
  | [] => [name]
  | n :: ns =>
    if name < n then name :: n :: ns
    else if name = n then n :: ns
    else n :: insertName name ns

/-- Putting a name into a list adds that name only. -/
theorem mem_insertName (name m : String) (ns : List String) :
  m ∈ insertName name ns ↔ m = name ∨ m ∈ ns
  := by
  induction ns with
  | nil => simp [insertName]
  | cons n ns ih =>
    unfold insertName
    split
    · simp
    · split
      · simp_all
      · simp only [List.mem_cons, ih]
        exact or_left_comm

/-- An increasing list stays increasing when a name is put in its place. -/
theorem insertName_sorted (name : String) (ns : List String) (h : ns.Pairwise (· < ·)) :
  (insertName name ns).Pairwise (· < ·)
  := by
  induction ns with
  | nil => simp [insertName]
  | cons n ns ih =>
    obtain ⟨hn, hs⟩ := List.pairwise_cons.mp h
    unfold insertName
    split
    · rename_i hlt
      refine List.pairwise_cons.mpr ⟨?_, h⟩
      intro m hm
      rcases List.mem_cons.mp hm with rfl | hm
      · exact hlt
      · exact String.lt_trans hlt (hn m hm)
    · split
      · exact h
      · rename_i hlt hne
        refine List.pairwise_cons.mpr ⟨?_, ih hs⟩
        intro m hm
        rcases (mem_insertName name m ns).mp hm with rfl | hm
        · exact Std.lt_of_le_of_ne (Std.not_lt.mp hlt) (Ne.symm hne)
        · exact hn m hm

/-- A type, as the set of its names. -/
structure Ty where
  /-- the names, in increasing order -/
  names : List String
  names_ne_nil : names ≠ []
  names_sorted : names.Pairwise (· < ·)
  names_lower : ∀ n ∈ names, n.toLower = n
deriving DecidableEq

namespace Ty

/-- The type of a single name. -/
def primitive (name : String) : Ty where
  names := [name.toLower]
  names_ne_nil := by simp
  names_sorted := by simp
  names_lower := by simp [toLower_toLower]

/-- The type whose names are those of `t` and `name`. -/
def insert (t : Ty) (name : String) : Ty where
  names := insertName name.toLower t.names
  names_ne_nil := List.ne_nil_of_mem ((mem_insertName _ _ _).mpr (Or.inl rfl))
  names_sorted := insertName_sorted _ _ t.names_sorted
  names_lower := by
    intro n hn
    rcases (mem_insertName _ _ _).mp hn with rfl | hn
    · exact toLower_toLower name
    · exact t.names_lower n hn

/-- The type with the names of both types. -/
def union (s t : Ty) : Ty :=
  t.names.foldl insert s

/-- The type with all the names of a list, if the list is not empty. -/
def either? : List String → Option Ty
  | [] => none
  | n :: ns => some (ns.foldl insert (primitive n))

/-- The type of all objects, from which every other type derives. -/
def object : Ty :=
  primitive "object"

/-- The type has a given name, whatever the case of its letters. -/
def contains (t : Ty) (name : String) : Bool :=
  t.names.any (sameWord name)

/-- The type has several names. -/
def isEither (t : Ty) : Bool :=
  1 < t.names.length

/-- The name of a type that has only one. -/
def primitiveName? (t : Ty) : Option String :=
  match t.names with
  | [n] => some n
  | _ => none

/-- The text of a type: its name, or all its names after `either`. -/
def text (t : Ty) : String :=
  match t.primitiveName? with
  | some n => n
  | none => "(either " ++ " ".intercalate t.names ++ ")"

end Ty

end PlanLang
