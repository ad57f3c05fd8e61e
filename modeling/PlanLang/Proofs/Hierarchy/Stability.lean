import Mathlib
import PlanLang.Proofs.Hierarchy.Calls

/-!
# Names and numbers that stay

The names and the parents of the types of a table can be kept in two lists, which calls change each
by itself.  The two lists stay equally long: they are the columns of the table.  A name has one
number and a number has one name, and however a table is changed further, its types keep their
numbers, their names and their parents.
-/

namespace PlanLang

namespace Hierarchy

variable {h h' h'' : Hierarchy} {n : String}

/-! ### Two columns -/

/-- A table as two lists, one of the names of the types and one of their parents. -/
structure Columns where
  names : List String
  parents : List (List Nat)
deriving DecidableEq, Repr

namespace Columns

/-- The number of a type, found among the names, whatever the case of its letters. -/
def get? (t : Columns) (name : String) : Option Nat :=
  t.names.findIdx? (sameWord name)

/-- The columns with a place for `name` in each of them, and the number of that place. -/
def insert (t : Columns) (name : String) : Columns × Nat :=
  match t.get? name with
  | some id => (t, id)
  | none => (⟨t.names ++ [name.toLower], t.parents ++ [[]]⟩, t.names.length)

/-- The columns in which `parent` is among the parents of `child`, too. -/
def link (t : Columns) (child parent : Nat) : Columns :=
  ⟨t.names, t.parents.modify child (·.insert parent)⟩

/-- The columns after a call.  A child that is to be linked needs a place among the parents. -/
def call? (t : Columns) : Call → Option Columns
  | .insert name => some (t.insert name).1
  | .relate child parent =>
    if child < t.parents.length then some (t.link child parent) else none

/-- The columns after several calls, if each of them returns. -/
def run? (t : Columns) : List Call → Option Columns
  | [] => some t
  | call :: calls => do (← t.call? call).run? calls

/-- The columns after a declaration. -/
def declare (t : Columns) (d : TypeDeclaration) : Columns :=
  let (t, child) := t.insert d.name
  d.parent.names.foldl
    (fun t name =>
      let (t, parent) := t.insert name
      t.link child parent)
    t

/-- The columns of a list of declarations, which are empty before `object` is inserted. -/
def ofDeclarations (ds : List TypeDeclaration) : Columns :=
  ds.foldl declare (insert ⟨[], []⟩ "object").1

end Columns

/-- The columns of a table. -/
def columns (h : Hierarchy) : Columns :=
  ⟨h.rows.map Row.name, h.rows.map Row.parents⟩

theorem columns_insert (h : Hierarchy) (n : String) :
  h.columns.insert n = ((h.insert n).1.columns, (h.insert n).2)
  := by
  have hget : h.columns.get? n = h.get? n := (get?_eq_findIdx?_map_name h n).symm
  rw [Columns.insert, hget]
  cases hn : h.get? n with
  | some a => rw [insert_of_known hn]
  | none => simp [insert_of_new hn, columns]

theorem columns_link (h : Hierarchy) (a b : Nat) :
  h.columns.link a b = (h.link a b).columns
  := by
  have hparents : (h.link a b).rows.map Row.parents
      = (h.rows.map Row.parents).modify a (·.insert b) := by
    apply List.ext_getElem?
    intro i
    simp only [link, List.getElem?_map, List.getElem?_modify]
    cases h.rows[i]? with
    | none => rfl
    | some row => by_cases hi : a = i <;> simp [hi]
  rw [Columns.link, columns, columns, map_name_link, hparents]

theorem columns_call? (h : Hierarchy) (call : Call) :
  h.columns.call? call = (h.call? call).map columns
  := by
  cases call with
  | insert n => rw [Columns.call?, columns_insert, Hierarchy.call?, Option.map_some]
  | relate a b =>
    have hlength : h.columns.parents.length = h.rows.length := List.length_map _
    rw [Columns.call?, hlength, columns_link, Hierarchy.call?, relate?]
    split <;> rfl

/-- Calls on the columns of a table give the columns of the table after the calls. -/
theorem columns_run? (h : Hierarchy) (calls : List Call) :
  h.columns.run? calls = (h.run? calls).map columns
  := by
  induction calls generalizing h with
  | nil => rfl
  | cons call calls ih =>
    simp only [Columns.run?, Hierarchy.run?, columns_call?]
    cases h.call? call with
    | none => rfl
    | some h₁ => apply ih

theorem columns_foldl_link (h : Hierarchy) (child : Nat) (ns : List String) :
  ns.foldl (fun t n => (t.insert n).1.link child (t.insert n).2) h.columns
    = (ns.foldl (fun h n => (h.insert n).1.link child (h.insert n).2) h).columns
  := by
  induction ns generalizing h with
  | nil => rfl
  | cons n ns ih => rw [List.foldl_cons, List.foldl_cons, columns_insert, columns_link, ih]

theorem columns_declare (h : Hierarchy) (d : TypeDeclaration) :
  h.columns.declare d = (h.declare d).columns
  := by
  simp only [Columns.declare, columns_insert]
  apply columns_foldl_link

theorem columns_foldl_declare (h : Hierarchy) (ds : List TypeDeclaration) :
  ds.foldl Columns.declare h.columns = (ds.foldl declare h).columns
  := by
  induction ds generalizing h with
  | nil => rfl
  | cons d ds ih => rw [List.foldl_cons, List.foldl_cons, columns_declare, ih]

/-- The columns of declarations are those of the table of the declarations. -/
theorem columns_ofDeclarations (ds : List TypeDeclaration) :
  Columns.ofDeclarations ds = (ofDeclarations ds).columns
  := by
  have hbase : (Columns.insert ⟨[], []⟩ "object").1 = base.columns := by
    decide +kernel
  rw [Columns.ofDeclarations, hbase, columns_foldl_declare, ofDeclarations]

/-! ### What a table keeps -/

/-- The types of the table `h` have the same numbers and names in `h'`, and there they have all the
parents that they have in `h`. -/
structure Extends (h h' : Hierarchy) : Prop where
  nameOf?_eq : ∀ a n, h.nameOf? a = some n → h'.nameOf? a = some n
  linked : ∀ a b, h.Linked a b → h'.Linked a b

namespace Extends

theorem refl (h : Hierarchy) :
  h.Extends h
  where
  nameOf?_eq _ _ := id
  linked _ _ := id

theorem trans (hfirst : h.Extends h') (hsecond : h'.Extends h'') :
  h.Extends h''
  where
  nameOf?_eq a n := hsecond.nameOf?_eq a n ∘ hfirst.nameOf?_eq a n
  linked a b := hsecond.linked a b ∘ hfirst.linked a b

theorem insert (h : Hierarchy) (n : String) :
  h.Extends (h.insert n).1
  where
  nameOf?_eq a m hm := by
    cases hn : h.get? n with
    | some b => rwa [insert_of_known hn]
    | none =>
      obtain ⟨ha, -⟩ := nameOf?_eq_some_iff.mp hm
      rw [insert_of_new hn, nameOf?, List.getElem?_append_left ha]
      exact hm
  linked a b hlinked := by rwa [Linked, parentsOf_insert]

theorem link (h : Hierarchy) (child parent : Nat) :
  h.Extends (h.link child parent)
  where
  nameOf?_eq a n hn := by
    rwa [nameOf?, ← List.getElem?_map, map_name_link, List.getElem?_map]
  linked a b hlinked := by
    by_cases hchild : child < h.rows.length
    · exact (linked_link_iff hchild).mpr (.inl hlinked)
    · have hrows : h.link child parent = h := by
        rw [Hierarchy.link, List.modify_eq_self (Nat.le_of_not_lt hchild)]
      rwa [hrows]

theorem foldl_link (h : Hierarchy) (child : Nat) (ns : List String) :
  h.Extends (ns.foldl (fun h n => (h.insert n).1.link child (h.insert n).2) h)
  := by
  induction ns generalizing h with
  | nil => apply refl
  | cons n ns ih => exact ((insert h n).trans (link _ child _)).trans (ih _)

theorem declare (h : Hierarchy) (d : TypeDeclaration) :
  h.Extends (h.declare d)
  := (insert h d.name).trans (foldl_link _ _ d.parent.names)

theorem foldl_declare (h : Hierarchy) (ds : List TypeDeclaration) :
  h.Extends (ds.foldl Hierarchy.declare h)
  := by
  induction ds generalizing h with
  | nil => apply refl
  | cons d ds ih => exact (declare h d).trans (ih _)

theorem call? {call : Call} (hcall : h.call? call = some h') :
  h.Extends h'
  := by
  rcases cases_of_call? hcall with ⟨n, rfl, rfl⟩ | ⟨child, parent, rfl, -, rfl⟩
  · apply insert
  · apply link

theorem run? {calls : List Call} (hrun : h.run? calls = some h') :
  h.Extends h'
  := by
  induction calls generalizing h with
  | nil =>
    cases hrun
    apply refl
  | cons call calls ih =>
    obtain ⟨h₁, hcall, hrest⟩ := run?_cons_eq_some_iff.mp hrun
    exact (call? hcall).trans (ih hrest)

end Extends

/-! ### Names and numbers -/

theorem IsIndex.nameOf?_toLower {a : Nat} (hi : h.IsIndex) (hn : h.nameOf? a = some n) :
  n.toLower = n
  := by
  obtain ⟨ha, rfl⟩ := nameOf?_eq_some_iff.mp hn
  apply hi.lower
  apply List.getElem_mem

/-- A name that stands in the table, in whatever case, has the number of its row. -/
theorem IsIndex.get?_of_sameWord {a : Nat} {m : String} (hi : h.IsIndex)
    (hm : h.nameOf? a = some m) (hnm : sameWord n m) :
  h.get? n = some a
  := by
  rw [get?_congr hnm, hi.get?_eq_some_iff, hi.nameOf?_toLower hm]
  exact hm

/-- A name has no number if it stands in no row. -/
theorem get?_eq_none_iff :
  h.get? n = none ↔ ∀ a m, h.nameOf? a = some m → ¬sameWord n m
  := by
  simp only [get?_eq_findIdx?_map_name, List.findIdx?_eq_none_iff, List.mem_iff_getElem?, nameOf?,
    List.getElem?_map, Bool.not_eq_true]
  constructor
  · intro hn a m hm
    exact hn m ⟨a, hm⟩
  · rintro hn m ⟨a, hm⟩
    exact hn a m hm

/-- Whatever calls change the table of a list of declarations, which may be empty: kept in two
columns, the table has the same names and parents, and the columns are equally long.  There is one
row for a name, in lower case, and the first one is that of `object`.  A name has the number of the
row in which it stands in lower case.  Inserting a name that is known in whatever case gives its
number and changes nothing; a new name gets the next number, and a row without parents.  The calls
that follow keep the names and the parents of all numbers. -/
theorem run?_keeps_names {ds : List TypeDeclaration} {calls : List Call}
    (hrun : (ofDeclarations ds).run? calls = some h) :
  (Columns.ofDeclarations ds).run? calls = some h.columns ∧
  h.columns.names.length = h.columns.parents.length ∧
  (h.columns.names.Nodup ∧ ∀ n ∈ h.columns.names, n.toLower = n) ∧
  h.nameOf? 0 = some "object" ∧
  (∀ n a, h.get? n = some a ↔ h.nameOf? a = some n.toLower) ∧
  (∀ n a m, h.nameOf? a = some m → sameWord n m → h.get? n = some a ∧ h.insert n = (h, a)) ∧
  (∀ n, (∀ a m, h.nameOf? a = some m → ¬sameWord n m) →
    h.get? n = none ∧ (h.insert n).2 = h.rows.length ∧
      (h.insert n).1.nameOf? h.rows.length = some n.toLower ∧
      (h.insert n).1.parentsOf h.rows.length = [] ∧
      (h.insert n).1.rows.length = h.rows.length + 1) ∧
  ∀ later h', h.run? later = some h' → h.Extends h'
  := by
  have hi : h.IsIndex := (records_ofDeclarations ds).toIsIndex.run? hrun
  refine ⟨?_, ?_, ?_, ?_, ?_, ?_, ?_, ?_⟩
  · rw [columns_ofDeclarations, columns_run?, hrun, Option.map_some]
  · rw [columns, List.length_map, List.length_map]
  · exact ⟨hi.nodup, List.forall_mem_map.mpr hi.lower⟩
  · -- `object` is there from the beginning, before the declarations and the calls
    exact ((Extends.foldl_declare base ds).trans (.run? hrun)).nameOf?_eq 0 "object" rfl
  · exact fun _ _ => hi.get?_eq_some_iff
  · intro n a m hm hnm
    have hn := hi.get?_of_sameWord hm hnm
    exact ⟨hn, insert_of_known hn⟩
  · intro n hnew
    have hn := get?_eq_none_iff.mpr hnew
    rw [insert_of_new hn]
    exact ⟨hn, rfl, by simp [nameOf?], by simp [parentsOf], List.length_append⟩
  · exact fun _ _ => .run?

/-- A type that is linked to a number without a type, a name in another case, and a new name. -/
theorem run?_keeps_names_crate :
  let ds : List TypeDeclaration := [⟨"Truck", .primitive "vehicle"⟩]
  let calls : List Call := [.insert "Crate", .relate 3 7]
  ∃ h h', (ofDeclarations ds).run? calls = some h ∧
    (Columns.ofDeclarations ds).run? calls = some h.columns ∧
    h.nameOf? 3 = some "crate" ∧ sameWord "CRATE" "crate" ∧
    h.get? "CRATE" = some 3 ∧ h.insert "CRATE" = (h, 3) ∧
    (∀ a m, h.nameOf? a = some m → ¬sameWord "Box" m) ∧
    (h.insert "Box").2 = h.rows.length ∧
    (h.insert "Box").1.nameOf? h.rows.length = some "Box".toLower ∧
    h.run? [.insert "Box", .relate 1 3] = some h' ∧ h.Extends h'
  := by
  intro ds calls
  let h : Hierarchy :=
    ⟨[⟨"object", []⟩, ⟨"truck", [2]⟩, ⟨"vehicle", []⟩, ⟨"crate", [7]⟩]⟩
  let h' : Hierarchy :=
    ⟨[⟨"object", []⟩, ⟨"truck", [3, 2]⟩, ⟨"vehicle", []⟩, ⟨"crate", [7]⟩, ⟨"box", []⟩]⟩
  have hrun : (ofDeclarations ds).run? calls = some h := by
    subst ds calls h
    cbv
  have hcrate : h.nameOf? 3 = some "crate" := rfl
  have hsame : sameWord "CRATE" "crate" := by cbv
  have hnew : ∀ a m, h.nameOf? a = some m → ¬sameWord "Box" m := by
    apply get?_eq_none_iff.mp
    subst h
    cbv
  have hlater : h.run? [.insert "Box", .relate 1 3] = some h' := by
    subst h h'
    cbv
  obtain ⟨hcolumns, -, -, -, -, hknown, hinsert, hkept⟩ := run?_keeps_names hrun
  obtain ⟨hget, hinsertCrate⟩ := hknown "CRATE" 3 "crate" hcrate hsame
  obtain ⟨-, hnumber, hname, -, -⟩ := hinsert "Box" hnew
  exact ⟨h, h', hrun, hcolumns, hcrate, hsame, hget, hinsertCrate, hnew, hnumber, hname, hlater,
    hkept _ h' hlater⟩

end Hierarchy

end PlanLang
