import PlanLang.Proofs.Hierarchy.Ancestors

/-!
# The names and links of a table

A table has one row for each name, in lower case, so that a number and a name determine each other.
Inserting a name adds this name, and linking two types adds the link between them; so the table of
a list of declarations knows the names that occur in the list, and its links are those that the
declarations state.
-/

namespace PlanLang

namespace Hierarchy

variable {h : Hierarchy} {a b : Nat} {m n : String}

/-! ### Names and numbers -/

/-- No name has two rows, and the names are in lower case. -/
structure IsIndex (h : Hierarchy) : Prop where
  nodup : (h.rows.map Row.name).Nodup
  lower : ∀ row ∈ h.rows, row.name.toLower = row.name

theorem nameOf?_eq_some_iff :
  h.nameOf? a = some n ↔ ∃ ha : a < h.rows.length, h.rows[a].name = n
  := by
  rw [nameOf?, Option.map_eq_some_iff]
  constructor
  · rintro ⟨row, hrow, rfl⟩
    obtain ⟨ha, rfl⟩ := List.getElem?_eq_some_iff.mp hrow
    exact ⟨ha, rfl⟩
  · rintro ⟨ha, rfl⟩
    exact ⟨_, List.getElem?_eq_getElem ha, rfl⟩

theorem get?_eq_findIdx?_map_name (h : Hierarchy) (n : String) :
  h.get? n = (h.rows.map Row.name).findIdx? (sameWord n)
  := by
  rw [get?, List.findIdx?_map]
  rfl

/-- Words that are the same have the same number. -/
theorem get?_congr (hmn : sameWord m n) :
  h.get? m = h.get? n
  := by
  rw [get?, get?, sameWord_congr hmn]

/-- A name and a number belong together if looking up the name gives the number, or if the name, in
lower case, stands in the row of the number. -/
theorem IsIndex.get?_eq_some_iff (hi : h.IsIndex) :
  h.get? n = some a ↔ h.nameOf? a = some n.toLower
  := by
  rw [get?, List.findIdx?_eq_some_iff_getElem, nameOf?_eq_some_iff]
  constructor
  · rintro ⟨ha, hsame, -⟩
    use ha
    rw [← hi.lower _ (List.getElem_mem ha), sameWord_iff.mp hsame]
  · rintro ⟨ha, hname⟩
    refine ⟨ha, ?_, ?_⟩
    · rw [sameWord_iff, hname, toLower_toLower]
    · intro i hia hsame
      have hi' : i < h.rows.length := Nat.lt_trans hia ha
      have heq : h.rows[i].name = h.rows[a].name := by
        rw [hname, ← hi.lower _ (List.getElem_mem hi'), sameWord_iff.mp hsame]
      have hne := List.pairwise_iff_getElem.mp hi.nodup i a (by simpa) (by simpa) hia
      simp [heq] at hne

/-- Every row is found by its name. -/
theorem IsIndex.exists_get?_eq_some (hi : h.IsIndex) (ha : a < h.rows.length) :
  ∃ n, h.get? n = some a
  := by
  use h.rows[a].name
  rw [hi.get?_eq_some_iff, nameOf?_eq_some_iff]
  exact ⟨ha, (hi.lower _ (List.getElem_mem ha)).symm⟩

theorem IsIndex.lt_length_of_get? (hi : h.IsIndex) (hn : h.get? n = some a) :
  a < h.rows.length
  := by
  obtain ⟨ha, -⟩ := nameOf?_eq_some_iff.mp (hi.get?_eq_some_iff.mp hn)
  exact ha

/-- Names with the same number are the same word. -/
theorem IsIndex.sameWord_of_get? (hi : h.IsIndex) (hm : h.get? m = some a)
    (hn : h.get? n = some a) :
  sameWord m n
  := by
  rw [hi.get?_eq_some_iff] at hm hn
  rw [hm] at hn
  exact sameWord_iff.mpr (Option.some.inj hn)

/-! ### Inserting a name -/

theorem insert_of_known (hn : h.get? n = some a) :
  h.insert n = (h, a)
  := by
  rw [insert, hn]

theorem insert_of_new (hn : h.get? n = none) :
  h.insert n = (⟨h.rows ++ [⟨n.toLower, []⟩]⟩, h.rows.length)
  := by
  rw [insert, hn]

/-- After a name is inserted, it has the number that inserting gives, and the numbers of other
names have not changed. -/
theorem get?_insert (h : Hierarchy) (m n : String) :
  (h.insert n).1.get? m = if sameWord m n then some (h.insert n).2 else h.get? m
  := by
  cases hn : h.get? n with
  | some a =>
    rw [insert_of_known hn]
    split
    · rename_i hmn
      rw [get?_congr hmn, hn]
    · rfl
  | none =>
    have hrow : sameWord m n.toLower = sameWord m n := by rw [sameWord, sameWord, toLower_toLower]
    rw [insert_of_new hn, get?, List.findIdx?_append, List.findIdx?_singleton, hrow]
    split
    · rename_i hmn
      have hm : h.get? m = none := by rw [get?_congr hmn, hn]
      rw [get?] at hm
      simp [hm]
    · simp [get?]

theorem get?_insert_of_some (hm : h.get? m = some a) (n : String) :
  (h.insert n).1.get? m = some a
  := by
  rw [get?_insert]
  split
  · rename_i hmn
    rw [get?_congr hmn] at hm
    rw [insert_of_known hm]
  · exact hm

theorem get?_of_get?_insert (hm : (h.insert n).1.get? m = some a) (ha : a < h.rows.length) :
  h.get? m = some a
  := by
  cases hn : h.get? n with
  | some b => rwa [insert_of_known hn] at hm
  | none =>
    rw [get?_insert, insert_of_new hn] at hm
    split at hm
    · obtain rfl := Option.some.inj hm
      exact absurd ha (Nat.lt_irrefl _)
    · exact hm

theorem parentsOf_insert (h : Hierarchy) (n : String) (a : Nat) :
  (h.insert n).1.parentsOf a = h.parentsOf a
  := by
  cases hn : h.get? n with
  | some b => rw [insert_of_known hn]
  | none =>
    rw [insert_of_new hn, parentsOf, parentsOf, List.getElem?_append]
    split
    · rfl
    · rename_i ha
      rw [List.getElem?_eq_none (Nat.le_of_not_lt ha), List.getElem?_singleton]
      split <;> rfl

theorem length_insert_le (h : Hierarchy) (n : String) :
  h.rows.length ≤ (h.insert n).1.rows.length
  := by
  cases hn : h.get? n with
  | some b => simp only [insert_of_known hn, Nat.le_refl]
  | none =>
    rw [insert_of_new hn]
    simp

theorem IsIndex.insert (hi : h.IsIndex) (n : String) :
  (h.insert n).1.IsIndex
  := by
  cases hn : h.get? n with
  | some b =>
    rw [insert_of_known hn]
    exact hi
  | none =>
    rw [insert_of_new hn]
    rw [get?, List.findIdx?_eq_none_iff] at hn
    constructor
    · rw [List.map_append, List.nodup_append]
      refine ⟨hi.nodup, by simp, ?_⟩
      intro m hm n' hn' heq
      obtain ⟨row, hrow, rfl⟩ := List.mem_map.mp hm
      obtain rfl : n' = n.toLower := by simpa using hn'
      have hsame : sameWord n row.name := by rw [sameWord_iff, heq, toLower_toLower]
      simp [hn row hrow] at hsame
    · intro row hrow
      rcases List.mem_append.mp hrow with hrow | hrow
      · exact hi.lower row hrow
      · obtain rfl := List.mem_singleton.mp hrow
        exact toLower_toLower n

/-! ### Linking two types -/

theorem map_name_link (h : Hierarchy) (a b : Nat) :
  (h.link a b).rows.map Row.name = h.rows.map Row.name
  := by
  apply List.ext_getElem?
  intro i
  simp only [link, List.getElem?_map, List.getElem?_modify]
  cases h.rows[i]? with
  | none => rfl
  | some row =>
    by_cases hi : a = i
    · simp [hi]
    · simp [hi]

theorem get?_link (h : Hierarchy) (a b : Nat) (n : String) :
  (h.link a b).get? n = h.get? n
  := by
  rw [get?_eq_findIdx?_map_name, get?_eq_findIdx?_map_name, map_name_link]

/-- Linking a child of the table to a parent adds this link. -/
theorem linked_link_iff {child parent : Nat} (hchild : child < h.rows.length) :
  (h.link child parent).Linked a b ↔ h.Linked a b ∨ a = child ∧ b = parent
  := by
  by_cases ha : a = child
  · subst ha
    simp [Linked, parentsOf, link, hchild, or_comm]
  · simp [Linked, parentsOf, link, Ne.symm ha, ha]

theorem length_link (h : Hierarchy) (a b : Nat) :
  (h.link a b).rows.length = h.rows.length
  := List.length_modify ..

theorem IsIndex.link (hi : h.IsIndex) (a b : Nat) :
  (h.link a b).IsIndex
  := by
  have hnames := map_name_link h a b
  constructor
  · rw [hnames]
    exact hi.nodup
  · rw [← List.forall_mem_map (f := Row.name) (P := fun n => n.toLower = n), hnames,
      List.forall_mem_map]
    exact hi.lower

end Hierarchy

end PlanLang
