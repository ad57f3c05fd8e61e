import Mathlib.Data.List.Nodup
import Mathlib.Logic.Relation
import PlanLang.Requirements

/-!
# Keywords and closures of requirements

A requirement is found by its keyword, and a list of requirements is declared by declaring one
after the other.  What is declared are the requirements that those of the list stand for, directly
or not.
-/

namespace PlanLang

/-- What is found is the only element that satisfies the condition. -/
theorem find?_of_unique {α : Type} {p : α → Bool} {a : α} {as : List α} (ha : a ∈ as) (hp : p a)
    (h : ∀ b, p b → b = a) :
  as.find? p = some a
  := by
  have hfound : (as.find? p).isSome := List.find?_isSome.mpr ⟨a, ha, hp⟩
  obtain ⟨b, hb⟩ := Option.isSome_iff_exists.mp hfound
  rwa [h b (List.find?_some hb)] at hb

namespace Requirement

/-! ### Keywords -/

theorem toLower_keyword (r : Requirement) :
  r.keyword.toLower = r.keyword
  := by
  cases r <;> decide +kernel

/-- No two requirements have the same keyword. -/
theorem keyword_injective {q r : Requirement} (heq : q.keyword = r.keyword) :
  q = r
  := by
  have hnodup : (all.map keyword).Nodup := by decide +kernel
  exact List.inj_on_of_nodup_map hnodup (mem_all q) (mem_all r) heq

theorem ofKeyword?_keyword (r : Requirement) :
  ofKeyword? r.keyword = some r
  := by
  apply find?_of_unique (mem_all r)
  · rw [sameWord, beq_self_eq_true]
  · intro q hq
    rw [sameWord, toLower_keyword, toLower_keyword, beq_iff_eq] at hq
    exact keyword_injective hq

/-! ### Closures -/

theorem mem_closure_self (r : Requirement) :
  r ∈ r.closure
  := by
  rw [closure]
  apply List.mem_cons_self

/-- A requirement stands for all that those stand for that it implies. -/
theorem mem_closure_of_mem_implies {q r s : Requirement} (hr : r ∈ s.implies)
    (hq : q ∈ r.closure) :
  q ∈ s.closure
  := by
  rw [closure]
  apply List.mem_cons_of_mem
  rw [List.mem_flatMap]
  exact ⟨⟨r, hr⟩, List.mem_attach _ _, hq⟩

/-- A chain of implications leads from `r` to `q`, which may be `r` itself. -/
def StandsFor (r q : Requirement) : Prop :=
  Relation.ReflTransGen (fun r q => q ∈ r.implies) r q

/-- What a requirement is declared together with is what it stands for. -/
theorem mem_closure_iff {q r : Requirement} :
  q ∈ r.closure ↔ r.StandsFor q
  := by
  constructor
  · intro h
    induction r using closure.induct with
    | case1 r ih =>
      rw [closure, List.mem_cons, List.mem_flatMap] at h
      rcases h with rfl | ⟨⟨s, hs⟩, -, hq⟩
      · exact .refl
      · exact .head hs (ih ⟨s, hs⟩ hq)
  · intro h
    induction h using Relation.ReflTransGen.head_induction_on with
    | refl => exact mem_closure_self q
    | head hs _ ih => exact mem_closure_of_mem_implies hs ih

instance : DecidableRel StandsFor :=
  fun r q => decidable_of_iff (q ∈ r.closure) mem_closure_iff

end Requirement

namespace Requirements

/-- What is declared are all the requirements that those of the list stand for. -/
theorem mem_toList_foldl_declare {q : Requirement} {rs : List Requirement}
    {s : Requirements} :
  q ∈ (rs.foldl .declare s).toList ↔ q ∈ s.toList ∨ ∃ r ∈ rs, q ∈ r.closure
  := by
  induction rs generalizing s with
  | nil => simp
  | cons r rs ih => simp [ih, mem_toList_declare, or_assoc]

/-- The set is what declaring the requirements `rs` makes available: it lists what they stand for,
each of it once and in the order of all requirements.  Beyond that, `:strips` is available if
nothing is declared. -/
structure AreDeclaredBy (s : Requirements) (rs : List Requirement) : Prop where
  toList : s.toList = Requirement.all.filter fun q => ∃ r ∈ rs, r.StandsFor q
  nodup : s.toList.Nodup
  has : ∀ q, s.has q ↔ q ∈ s.toList ∨ (q = .strips ∧ rs = [])

/-- Declaring requirements one after the other makes available what they stand for. -/
theorem areDeclaredBy_foldl (rs : List Requirement) :
  (rs.foldl .declare .empty : Requirements).AreDeclaredBy rs
  := by
  have hmem : ∀ {rs : List Requirement} {q},
      q ∈ (rs.foldl .declare .empty : Requirements).toList ↔ ∃ r ∈ rs, r.StandsFor q := by
    intro rs q
    simp [mem_toList_foldl_declare, empty, Requirement.mem_closure_iff]
  constructor
  · rcases rs.eq_nil_or_concat with rfl | ⟨rs, r, rfl⟩
    · simp [empty]
    · rw [List.concat_eq_append, List.foldl_append]
      apply List.filter_congr
      intro q _
      simp [hmem, Requirement.mem_closure_iff, or_and_right, exists_or]
  · apply (toList_sublist _).nodup
    decide
  · intro q
    have hempty : (rs.foldl .declare .empty : Requirements).toList.isEmpty ↔ rs = [] := by
      rw [List.isEmpty_iff, List.eq_nil_iff_forall_not_mem, List.eq_nil_iff_forall_not_mem]
      constructor
      · intro h r hr
        exact h r (hmem.mpr ⟨r, hr, .refl⟩)
      · intro h q hq
        obtain ⟨r, hr, -⟩ := hmem.mp hq
        exact h r hr
    rw [Requirements.has, Bool.or_eq_true, Bool.and_eq_true, decide_eq_true_eq, decide_eq_true_eq,
      hempty]

end Requirements

end PlanLang
