import PlanLang.Ty

/-!
# The hierarchy of types

The declared types of a domain are numbered in a table, which keeps for each of them the
numbers of its immediate parents. The type `object` is always there, with the number zero. A
type is a subtype of another when a chain of parents leads from the first to the second, and
every type is a subtype of `object`.
-/

namespace PlanLang

/-- The declaration of a type name as a subtype of every name of its parent. -/
structure TypeDeclaration where
  name : String
  parent : Ty
deriving DecidableEq

/-- The declaration of a name, which is kept in lower case. -/
def TypeDeclaration.ofName (name : String) (parent : Ty) : TypeDeclaration :=
  ⟨name.toLower, parent⟩

namespace Hierarchy

/-- What the table says about one type: its name and the numbers of its immediate parents. -/
structure Row where
  name : String
  parents : List Nat
deriving DecidableEq, Repr

end Hierarchy

/-- A table of types; the number of a type is the place of its row. -/
structure Hierarchy where
  rows : List Hierarchy.Row
deriving DecidableEq, Repr

namespace Hierarchy

/-- The table that holds `object` only. -/
def base : Hierarchy :=
  ⟨[⟨"object", []⟩]⟩

/-- The number of a type, found by its name, whatever the case of its letters. -/
def get? (h : Hierarchy) (name : String) : Option Nat :=
  h.rows.findIdx? fun row => sameWord name row.name

/-- The name of the type with the number `id`. -/
def nameOf? (h : Hierarchy) (id : Nat) : Option String :=
  h.rows[id]?.map Row.name

/-- The numbers of the immediate parents of the type with the number `id`; there are none if
the table has no such type. -/
def parentsOf (h : Hierarchy) (id : Nat) : List Nat :=
  (h.rows[id]?.map Row.parents).getD []

/-- The table with a row for `name`, and the number of that row. A name that is known keeps
its row; a new one gets the last row and has no parents. -/
def insert (h : Hierarchy) (name : String) : Hierarchy × Nat :=
  match h.get? name with
  | some id => (h, id)
  | none => (⟨h.rows ++ [⟨name.toLower, []⟩]⟩, h.rows.length)

/-- The table in which `parent` is an immediate parent of `child`, too. -/
def link (h : Hierarchy) (child parent : Nat) : Hierarchy :=
  ⟨h.rows.modify child fun row => ⟨row.name, row.parents.insert parent⟩⟩

/-- Links a child to a parent; there must be a row for the child. -/
def relate? (h : Hierarchy) (child parent : Nat) : Option Hierarchy :=
  if child < h.rows.length then some (h.link child parent) else none

/-- The table after a declaration: its name is linked to every name of its parent. -/
def declare (h : Hierarchy) (d : TypeDeclaration) : Hierarchy :=
  let (h, child) := h.insert d.name
  d.parent.names.foldl
    (fun h name =>
      let (h, parent) := h.insert name
      h.link child parent)
    h

/-- The table of a list of declarations. -/
def ofDeclarations (ds : List TypeDeclaration) : Hierarchy :=
  ds.foldl declare base

/-- The rows that are not in `seen`. -/
def unseen (h : Hierarchy) (seen : List Nat) : List Nat :=
  (List.range h.rows.length).filter fun id => id ∉ seen

/-- A row that is seen now for the first time names fewer rows unseen. -/
theorem length_unseen_cons_lt (h : Hierarchy) {seen : List Nat} {id : Nat}
    (hid : id < h.rows.length) (hs : id ∉ seen) :
  (h.unseen (id :: seen)).length < (h.unseen seen).length
  := by
  have hf : h.unseen (id :: seen) = (h.unseen seen).filter (· ≠ id) := by
    simp [unseen, List.filter_filter]
  rw [hf]
  apply List.length_filter_lt_length_iff_exists.mpr
  exact ⟨id, by simp [unseen, hid, hs], by simp⟩

/-- The rows that chains of parents reach from the numbers in `pending`, and those in
`seen`, from which nothing remains to be followed. -/
def reach (h : Hierarchy) (pending seen : List Nat) : List Nat :=
  match pending with
  | [] => seen
  | id :: pending =>
    if hid : id < h.rows.length then
      if hs : id ∈ seen then h.reach pending seen
      else h.reach (h.rows[id].parents ++ pending) (id :: seen)
    else h.reach pending seen
termination_by ((h.unseen seen).length, pending.length)
decreasing_by
  · exact Prod.Lex.right _ (by simp)
  · exact Prod.Lex.left _ _ (h.length_unseen_cons_lt hid hs)
  · exact Prod.Lex.right _ (by simp)

/-- The ancestors of a type: the numbers that a chain of one or more links leads to. -/
def ancestors (h : Hierarchy) (id : Nat) : List Nat :=
  (h.reach [id] []).flatMap h.parentsOf

/-- Whether `child` is a subtype of `parent`. Both must be known. Then it is one if the two
are the same, if the parent is `object`, or if the parent is an ancestor of the child. The
answer is missing if it depends on a link to a row that the table does not have. -/
def isSubtype? (h : Hierarchy) (child parent : String) : Option Bool :=
  match h.get? child, h.get? parent with
  | some c, some p =>
    if c = p || h.nameOf? p = some "object" then some true
    else if p ∈ h.ancestors c then some true
    else if (h.ancestors c).all (· < h.rows.length) then some false
    else none
  | _, _ => some false

end Hierarchy

end PlanLang
