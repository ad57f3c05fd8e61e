import Mathlib
import PlanLang.Proofs.Ty

/-!
# Types as canonical sets

A type stands for the set of its names in lower case, and there is one type for each set.  So a
union of types has the names that the types have together, and neither their order nor their
grouping matters.
-/

namespace PlanLang

/-- The set of the names of a list, in lower case. -/
def nameSet (names : List String) : Finset String :=
  (names.map String.toLower).toFinset

theorem mem_nameSet {names : List String} {n : String} :
  n ∈ nameSet names ↔ ∃ m ∈ names, n = m.toLower
  := by
  simp [nameSet, eq_comm]

theorem nameSet_append (names names' : List String) :
  nameSet (names ++ names') = nameSet names ∪ nameSet names'
  := by
  rw [nameSet, List.map_append, List.toFinset_append, nameSet, nameSet]

namespace Ty

variable {s t : Ty} {names names' : List String}

/-- A type is determined by the set of its names. -/
theorem eq_of_toFinset_eq (h : s.names.toFinset = t.names.toFinset) :
  s = t
  := by
  have hnodup : ∀ t : Ty, t.names.Nodup := by
    intro t
    exact t.names_sorted.imp fun hlt => String.ne_of_lt hlt
  have hperm : s.names.Perm t.names := List.perm_of_nodup_nodup_toFinset_eq (hnodup s) (hnodup t) h
  apply eq_of_names
  apply hperm.eq_of_pairwise _ s.names_sorted t.names_sorted
  intro m n _ _ hmn hnm
  exact absurd hnm (String.lt_asymm hmn)

theorem toFinset_names_foldl_insert (names : List String) (t : Ty) :
  (names.foldl insert t).names.toFinset = nameSet names ∪ t.names.toFinset
  := by
  ext n
  rw [List.mem_toFinset, mem_names_foldl_insert, Finset.mem_union, mem_nameSet, List.mem_toFinset]

/-- The names of a type are in lower case already. -/
theorem nameSet_names (t : Ty) :
  nameSet t.names = t.names.toFinset
  := by
  rw [nameSet, List.map_congr_left t.names_lower, List.map_id']

/-- The type of the names of a list is the one with these names, in lower case. -/
theorem either?_eq_some_iff :
  either? names = some t ↔ t.names.toFinset = nameSet names
  := by
  have hnames : ∀ n ns, (ns.foldl insert (primitive n)).names.toFinset = nameSet (n :: ns) := by
    intro n ns
    rw [toFinset_names_foldl_insert, names_primitive, Finset.union_comm]
    exact (nameSet_append [n] ns).symm
  cases names with
  | nil => simp [either?, nameSet, t.names_ne_nil]
  | cons n ns =>
    rw [either?, Option.some_inj, ← hnames]
    constructor
    · rintro rfl
      rfl
    · intro h
      exact (eq_of_toFinset_eq h).symm

/-- The union of two types has the names of both. -/
theorem either?_append (hs : either? names = some s) (ht : either? names' = some t) :
  either? (names ++ names') = some (s.union t)
  := by
  rw [either?_eq_some_iff] at hs ht ⊢
  rw [union, toFinset_names_foldl_insert, nameSet_names, hs, ht, nameSet_append, Finset.union_comm]

/-- The union of a type with several others has the names of all of them. -/
theorem either?_append_flatten {nss : List (List String)} {ts : List Ty}
    (hs : either? names = some s)
    (hts : List.Forall₂ (fun names t => either? names = some t) nss ts) :
  either? (names ++ nss.flatten) = some (ts.foldl union s)
  := by
  induction hts generalizing names s with
  | nil => rwa [List.flatten_nil, List.append_nil]
  | cons ht _ ih =>
    rw [List.flatten_cons, ← List.append_assoc]
    exact ih (either?_append hs ht)

/-- A type has a name if it is the same word as one of the names that the type is made of. -/
theorem contains_iff (h : either? names = some t) (n : String) :
  t.contains n ↔ ∃ m ∈ names, sameWord n m
  := by
  have hnames : ∀ m, m ∈ t.names ↔ ∃ k ∈ names, m = k.toLower := by
    intro m
    rw [← List.mem_toFinset, either?_eq_some_iff.mp h, mem_nameSet]
  simp only [contains, List.any_eq_true, sameWord_iff, hnames]
  constructor
  · rintro ⟨m, ⟨k, hk, rfl⟩, hm⟩
    exact ⟨k, hk, by rw [hm, toLower_toLower]⟩
  · rintro ⟨m, hm, hn⟩
    exact ⟨m.toLower, ⟨m, hm, rfl⟩, by rw [hn, toLower_toLower]⟩

end Ty

end PlanLang
