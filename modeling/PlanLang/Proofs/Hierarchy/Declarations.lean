import PlanLang.Proofs.Hierarchy.Index

/-!
# The table of a list of declarations

The table of a list of declarations knows `object` and the names that the declarations mention, and
one type is an immediate parent of another if and only if a declaration says so.  This is kept as
declarations are added one by one, while names and links are added in turn.
-/

namespace PlanLang

namespace TypeDeclaration

/-- The name is `object`, or one of the declarations mentions it, as the type that it declares or as
one of the names of the parent. -/
def Known (ds : List TypeDeclaration) (n : String) : Prop :=
  sameWord n "object" ∨ ∃ d ∈ ds, sameWord n d.name ∨ d.parent.contains n

/-- One of the declarations declares `m`, and `n` is one of the names of the parent. -/
def Derives (ds : List TypeDeclaration) (m n : String) : Prop :=
  ∃ d ∈ ds, sameWord m d.name ∧ d.parent.contains n

end TypeDeclaration

namespace Hierarchy

open Relation (TransGen)
open TypeDeclaration (Known Derives)

variable {h : Hierarchy} {known known' : String → Prop} {derives derives' : String → String → Prop}
  {a b : Nat} {m n : String}

/-- The table has rows for the names that are known, and it links the types that derive from each
other, none of which is missing. -/
structure Records (h : Hierarchy) (known : String → Prop) (derives : String → String → Prop) :
    Prop extends h.IsIndex where
  known_iff : ∀ n, known n ↔ ∃ a, h.get? n = some a
  derives_iff : ∀ m n, derives m n ↔
    ∃ a b, h.get? m = some a ∧ h.get? n = some b ∧ h.Linked a b
  parent_lt : ∀ a b, h.Linked a b → b < h.rows.length

namespace Records

theorem congr (hr : h.Records known derives) (hknown : ∀ n, known n ↔ known' n)
    (hderives : ∀ m n, derives m n ↔ derives' m n) :
  h.Records known' derives'
  where
  toIsIndex := hr.toIsIndex
  known_iff n := (hknown n).symm.trans (hr.known_iff n)
  derives_iff m n := (hderives m n).symm.trans (hr.derives_iff m n)
  parent_lt := hr.parent_lt

/-! ### Adding names and links -/

theorem base :
  base.Records (sameWord · "object") fun _ _ => False
  where
  nodup := by simp [Hierarchy.base]
  lower := by
    intro row hrow
    obtain rfl := List.mem_singleton.mp hrow
    decide +kernel
  known_iff n := by
    simp only [get?, Hierarchy.base, List.findIdx?_singleton]
    split <;> simp [*]
  derives_iff m n := by
    simp only [false_iff, not_exists, not_and]
    intro a b _ _ hlinked
    have ha := hlinked.lt_length
    simp only [Hierarchy.base, List.length_singleton, Nat.lt_one_iff] at ha
    simp [Linked, parentsOf, Hierarchy.base, ha] at hlinked
  parent_lt a b hlinked := by
    have ha := hlinked.lt_length
    simp only [Hierarchy.base, List.length_singleton, Nat.lt_one_iff] at ha
    simp [Linked, parentsOf, Hierarchy.base, ha] at hlinked

theorem insert (hr : h.Records known derives) (n : String) :
  (h.insert n).1.Records (fun m => known m ∨ sameWord m n) derives
  where
  toIsIndex := hr.toIsIndex.insert n
  known_iff m := by
    rw [get?_insert, hr.known_iff]
    split <;> simp [*]
  derives_iff m m' := by
    rw [hr.derives_iff]
    constructor
    · rintro ⟨a, b, hm, hm', hlinked⟩
      refine ⟨a, b, get?_insert_of_some hm n, get?_insert_of_some hm' n, ?_⟩
      rwa [Linked, parentsOf_insert]
    · rintro ⟨a, b, hm, hm', hlinked⟩
      rw [Linked, parentsOf_insert] at hlinked
      exact ⟨a, b, get?_of_get?_insert hm (Linked.lt_length hlinked),
        get?_of_get?_insert hm' (hr.parent_lt a b hlinked), hlinked⟩
  parent_lt a b hlinked := by
    rw [Linked, parentsOf_insert] at hlinked
    exact Nat.lt_of_lt_of_le (hr.parent_lt a b hlinked) (length_insert_le h n)

theorem link (hr : h.Records known derives) (hm : h.get? m = some a) (hn : h.get? n = some b) :
  (h.link a b).Records known fun m' n' => derives m' n' ∨ sameWord m' m ∧ sameWord n' n
  where
  toIsIndex := hr.toIsIndex.link a b
  known_iff m' := by simp only [get?_link, hr.known_iff]
  derives_iff m' n' := by
    simp only [get?_link, linked_link_iff (hr.lt_length_of_get? hm), hr.derives_iff]
    constructor
    · rintro (⟨a', b', hm', hn', hlinked⟩ | ⟨hm', hn'⟩)
      · exact ⟨a', b', hm', hn', .inl hlinked⟩
      · exact ⟨a, b, by rw [get?_congr hm', hm], by rw [get?_congr hn', hn], .inr ⟨rfl, rfl⟩⟩
    · rintro ⟨a', b', hm', hn', hlinked | ⟨rfl, rfl⟩⟩
      · exact .inl ⟨a', b', hm', hn', hlinked⟩
      · exact .inr ⟨hr.sameWord_of_get? hm' hm, hr.sameWord_of_get? hn' hn⟩
  parent_lt a' b' hlinked := by
    rw [length_link]
    rcases (linked_link_iff (hr.lt_length_of_get? hm)).mp hlinked with hlinked | ⟨-, rfl⟩
    · exact hr.parent_lt a' b' hlinked
    · exact hr.lt_length_of_get? hn

/-- The parents of a declared type are inserted and linked one after the other. -/
theorem foldl_link (ns : List String) (hr : h.Records known derives) (hm : h.get? m = some a) :
  (ns.foldl (fun h n => (h.insert n).1.link a (h.insert n).2) h).Records
    (fun n => known n ∨ ns.any (sameWord n))
    (fun m' n => derives m' n ∨ sameWord m' m ∧ ns.any (sameWord n))
  := by
  induction ns generalizing h known derives with
  | nil => exact hr.congr (by simp) (by simp)
  | cons n ns ih =>
    have hm' := get?_insert_of_some hm n
    have hn : (h.insert n).1.get? n = some (h.insert n).2 := by
      rw [get?_insert, if_pos (sameWord_refl _)]
    have hfirst := (hr.insert n).link hm' hn
    apply (ih hfirst (by rw [get?_link, hm'])).congr
    · intro n'
      rw [List.any_cons, Bool.or_eq_true, or_assoc]
    · intro m' n'
      rw [List.any_cons, Bool.or_eq_true, or_assoc, ← and_or_left]

theorem declare (hr : h.Records known derives) (d : TypeDeclaration) :
  (h.declare d).Records (fun n => known n ∨ sameWord n d.name ∨ d.parent.contains n)
    fun m n => derives m n ∨ sameWord m d.name ∧ d.parent.contains n
  := by
  have hname : (h.insert d.name).1.get? d.name = some (h.insert d.name).2 := by
    rw [get?_insert, if_pos (sameWord_refl _)]
  apply ((hr.insert d.name).foldl_link d.parent.names hname).congr
  · intro n
    rw [or_assoc, Ty.contains]
  · intro m n
    rw [Ty.contains]

theorem foldl_declare (ds : List TypeDeclaration) (hr : h.Records known derives) :
  (ds.foldl Hierarchy.declare h).Records
    (fun n => known n ∨ ∃ d ∈ ds, sameWord n d.name ∨ d.parent.contains n)
    fun m n => derives m n ∨ Derives ds m n
  := by
  induction ds generalizing h known derives with
  | nil => exact hr.congr (by simp) (by simp [Derives])
  | cons d ds ih =>
    apply (ih (hr.declare d)).congr
    · intro n
      simp only [List.mem_cons, exists_eq_or_imp, or_assoc]
    · intro m n
      simp only [Derives, List.mem_cons, exists_eq_or_imp, or_assoc]

end Records

/-- The table of a list of declarations records what the declarations say. -/
theorem records_ofDeclarations (ds : List TypeDeclaration) :
  (ofDeclarations ds).Records (Known ds) (Derives ds)
  := by
  apply (Records.base.foldl_declare ds).congr
  · intro n
    rfl
  · intro m n
    rw [false_or]

/-! ### Subtypes -/

namespace Records

/-- A chain of links follows a chain of derivations. -/
theorem exists_of_transGen (hr : h.Records known derives) (hmn : TransGen derives m n)
    (hm : h.get? m = some a) :
  ∃ b, h.get? n = some b ∧ TransGen h.Linked a b
  := by
  induction hmn with
  | single hmn =>
    obtain ⟨a', b, hm', hn, hlinked⟩ := (hr.derives_iff _ _).mp hmn
    obtain rfl : a = a' := by simpa [hm] using hm'
    exact ⟨b, hn, .single hlinked⟩
  | tail _ hkn ih =>
    obtain ⟨c, hk, hac⟩ := ih
    obtain ⟨c', b, hk', hn, hlinked⟩ := (hr.derives_iff _ _).mp hkn
    obtain rfl : c = c' := by simpa [hk] using hk'
    exact ⟨b, hn, .tail hac hlinked⟩

/-- A chain of derivations follows a chain of links. -/
theorem transGen_of_linked (hr : h.Records known derives) (hab : TransGen h.Linked a b)
    (hm : h.get? m = some a) (hn : h.get? n = some b) :
  TransGen derives m n
  := by
  induction hab generalizing n with
  | single hlinked => exact .single ((hr.derives_iff m n).mpr ⟨_, _, hm, hn, hlinked⟩)
  | tail _ hlinked ih =>
    obtain ⟨k, hk⟩ := hr.exists_get?_eq_some hlinked.lt_length
    exact .tail (ih hk) ((hr.derives_iff k n).mpr ⟨_, _, hk, hn, hlinked⟩)

theorem transGen_iff (hr : h.Records known derives) (hm : h.get? m = some a)
    (hn : h.get? n = some b) :
  TransGen derives m n ↔ TransGen h.Linked a b
  := by
  constructor
  · intro hmn
    obtain ⟨b', hn', hab⟩ := hr.exists_of_transGen hmn hm
    obtain rfl : b = b' := by simpa [hn] using hn'
    exact hab
  · intro hab
    exact hr.transGen_of_linked hab hm hn

/-- One type counts as a subtype of another if it derives from it, or if the names are equal or
that of the other is `object`. -/
theorem below_iff (hr : h.Records known derives) (hm : h.get? m = some a)
    (hn : h.get? n = some b) :
  h.Below a b ↔ sameWord m n ∨ sameWord n "object" ∨ TransGen derives m n
  := by
  have heq : a = b ↔ sameWord m n := by
    constructor
    · rintro rfl
      exact hr.sameWord_of_get? hm hn
    · intro hmn
      simpa [hm, hn] using get?_congr (h := h) hmn
  have hobject : h.nameOf? b = some "object" ↔ sameWord n "object" := by
    rw [hr.get?_eq_some_iff.mp hn, Option.some_inj, sameWord_iff]
    have hlower : "object".toLower = "object" := by decide +kernel
    rw [hlower]
  rw [Below, heq, hobject, hr.transGen_iff hm hn]

/-- In a table that records what is known and what derives from what, the question for a subtype is
answered, and the answer is derivation, to which the equal names and `object` as parent are
added. -/
theorem exists_isSubtype? (hr : h.Records known derives) (m n : String) :
  ∃ answer, h.isSubtype? m n = some answer ∧
    (answer ↔ known m ∧ known n ∧
      (sameWord m n ∨ sameWord n "object" ∨ TransGen derives m n))
  := by
  obtain ⟨answer, hanswer, hiff⟩ := exists_isSubtype?_of_parent_lt hr.parent_lt m n
  refine ⟨answer, hanswer, ?_⟩
  rw [hiff, hr.known_iff, hr.known_iff]
  constructor
  · rintro ⟨a, b, hm, hn, hbelow⟩
    exact ⟨⟨a, hm⟩, ⟨b, hn⟩, (hr.below_iff hm hn).mp hbelow⟩
  · rintro ⟨⟨a, hm⟩, ⟨b, hn⟩, hmn⟩
    exact ⟨a, b, hm, hn, (hr.below_iff hm hn).mpr hmn⟩

theorem isSubtype?_eq_true_iff (hr : h.Records known derives) (m n : String) :
  h.isSubtype? m n = some true ↔ known m ∧ known n ∧
    (sameWord m n ∨ sameWord n "object" ∨ TransGen derives m n)
  := by
  obtain ⟨answer, hanswer, hiff⟩ := hr.exists_isSubtype? m n
  rw [hanswer, Option.some_inj, hiff]

end Records

end Hierarchy

end PlanLang
