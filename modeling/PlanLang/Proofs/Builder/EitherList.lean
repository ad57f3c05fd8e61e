import Mathlib
import PlanLang.Proofs.Builder.Assembly
import PlanLang.Proofs.ByteOrder
import PlanLang.Proofs.Ty.Canonical

/-!
# Types in an either list

Ending an either list makes one type of the types in it.  It is the type of all their names, so that
it depends neither on the order of the types nor on how often they come, and they can as well stand
in either lists inside the list.
-/

namespace PlanLang

/-! ### Grouped types -/

/-- Types in groups: a type of its own, or an either list of one or more groups. -/
inductive Grouping where
  | single (t : Ty)
  | either (first : Grouping) (others : List Grouping)

namespace Grouping

mutual

/-- The types in the groups, from left to right. -/
def types : Grouping → List Ty
  | single t => [t]
  | either g gs => types g ++ typesAll gs

/-- The types in several groups, from left to right. -/
def typesAll : List Grouping → List Ty
  | [] => []
  | g :: gs => types g ++ typesAll gs

end

mutual

/-- Puts grouped types on a builder: a type as it is, and the groups of an either list between its
beginning and its end. -/
def build : Grouping → Build Unit
  | single t => Builder.push (.ty t)
  | either g gs => do
    Builder.begin .either
    build g
    buildAll gs
    Builder.finish .either

/-- Puts grouped types on a builder, one group after the other. -/
def buildAll : List Grouping → Build Unit
  | [] => pure ()
  | g :: gs => do
    build g
    buildAll gs

end

end Grouping

/-! ### Ending an either list -/

/-- The types `ts` are those of the names of the lists `nss`, one type for each list.  A type of a
single name is that of the list with this name, in whatever case it is written. -/
abbrev AreNamed (nss : List (List String)) (ts : List Ty) : Prop :=
  List.Forall₂ (fun names t => Ty.either? names = some t) nss ts

namespace AreNamed

variable {nss : List (List String)} {ts : List Ty}

theorem nameSet_flatten (h : AreNamed nss ts) :
  nameSet nss.flatten = nameSet (ts.flatMap Ty.names)
  := by
  induction h with
  | nil => rfl
  | cons ht _ ih =>
    rw [List.flatten_cons, nameSet_append, ih, List.flatMap_cons, nameSet_append, Ty.nameSet_names,
      Ty.either?_eq_some_iff.mp ht]

/-- Types above the beginning of an either list become the type of all their names. -/
theorem finish_either (h : AreNamed nss ts) (hts : ts ≠ []) (T : Option Ty) (fs : List Frame) :
  ∃ t, Ty.either? nss.flatten = some t ∧
    Builder.finish .either ⟨T, (ts.map Frame.ty).reverse ++ Frame.opened .either :: fs⟩
      = .ok () ⟨T, .ty t :: fs⟩
  := by
  cases h with
  | nil => contradiction
  | @cons names t nss ts ht h =>
    use ts.foldl .union t, Ty.either?_append_flatten ht h
    apply Builder.finish_ok (o := .either) rfl
    · simp [Frame.isOpen]
    · apply Opening.Assembles.either

end AreNamed

namespace Grouping

mutual

/-- Grouped types become the type of all their names. -/
theorem build_ok (T : Option Ty) :
  ∀ (g : Grouping) (fs : List Frame), ∃ t, Ty.either? (g.types.flatMap Ty.names) = some t ∧
    g.build ⟨T, fs⟩ = .ok () ⟨T, .ty t :: fs⟩
  | .single t, fs => ⟨t, by simp [types, Ty.either?_names], rfl⟩
  | .either g gs, fs => by
      obtain ⟨t, ht, hbuild⟩ := build_ok T g (.opened .either :: fs)
      obtain ⟨nss, ts, hnss, hts, hbuildAll⟩ := buildAll_ok T gs (.ty t :: .opened .either :: fs)
      have hall : AreNamed (g.types.flatMap Ty.names :: nss) (t :: ts) := .cons ht hts
      obtain ⟨u, hu, hfinish⟩ := hall.finish_either (List.cons_ne_nil _ _) T fs
      rw [List.flatten_cons, hnss, ← List.flatMap_append] at hu
      rw [List.map_cons, List.reverse_cons, List.append_assoc, List.singleton_append] at hfinish
      have hbegin : Builder.begin .either ⟨T, fs⟩ = .ok () ⟨T, .opened .either :: fs⟩ := rfl
      use u, hu
      rw [build, bind_ok hbegin, bind_ok hbuild, bind_ok hbuildAll, hfinish]

theorem buildAll_ok (T : Option Ty) :
  ∀ (gs : List Grouping) (fs : List Frame), ∃ nss ts,
    nss.flatten = (typesAll gs).flatMap Ty.names ∧ AreNamed nss ts ∧
      buildAll gs ⟨T, fs⟩ = .ok () ⟨T, (ts.map Frame.ty).reverse ++ fs⟩
  | [], fs => ⟨[], [], rfl, .nil, rfl⟩
  | g :: gs, fs => by
      obtain ⟨t, ht, hbuild⟩ := build_ok T g fs
      obtain ⟨nss, ts, hnss, hts, hbuildAll⟩ := buildAll_ok T gs (.ty t :: fs)
      refine ⟨g.types.flatMap Ty.names :: nss, t :: ts, ?_, .cons ht hts, ?_⟩
      · rw [List.flatten_cons, hnss, typesAll, List.flatMap_append]
      · rw [buildAll, bind_ok hbuild, hbuildAll]
        simp

end

end Grouping

/-- The builder has the types `ts` on top, at least one, above the beginning of an either list; the
frames `below` come after that. -/
structure Builder.ListsTypes (b : Builder) (ts : List Ty) (below : List Frame) : Prop where
  ne_nil : ts ≠ []
  frames_eq : b.frames = (ts.map Frame.ty).reverse ++ Frame.opened .either :: below

/-- Where an either list of types ends, the type of all their names takes its place, whatever the
case in which the names were written.  Any grouping of the same types in either lists, in any order
and with repetitions, makes up this type.  The type has exactly the names that the types have, and
their bytes are in strictly increasing order.  Two either lists make up the same type, with the same
names and the same text, if and only if the sets of their names in lower case are equal. -/
theorem finish_either_canonical {b b' : Builder} {nss nss' : List (List String)}
    {ts ts' : List Ty} {below below' : List Frame} (h : b.ListsTypes ts below)
    (h' : b'.ListsTypes ts' below') (hnss : AreNamed nss ts) (hnss' : AreNamed nss' ts') :
  ∃ t t', (Builder.finish .either b = .ok () { b with frames := .ty t :: below } ∧
      Ty.either? nss.flatten = some t) ∧
    (Builder.finish .either b' = .ok () { b' with frames := .ty t' :: below' } ∧
      Ty.either? nss'.flatten = some t') ∧
    (∀ g : Grouping, (∀ u, u ∈ g.types ↔ u ∈ ts) →
      ∀ c : Builder, g.build c = .ok () { c with frames := .ty t :: c.frames }) ∧
    (∀ n, t.contains n ↔ ∃ m ∈ nss.flatten, sameWord n m) ∧
    t.names.Pairwise (fun m n => bytes m < bytes n) ∧
    (t = t' ↔ nameSet nss.flatten = nameSet nss'.flatten) ∧
    (nameSet nss.flatten = nameSet nss'.flatten → t.names = t'.names ∧ t.text = t'.text)
  := by
  obtain ⟨T, fs⟩ := b
  obtain ⟨T', fs'⟩ := b'
  obtain ⟨hts, rfl⟩ := h
  obtain ⟨hts', rfl⟩ := h'
  obtain ⟨t, ht, hfinish⟩ := hnss.finish_either hts T below
  obtain ⟨t', ht', hfinish'⟩ := hnss'.finish_either hts' T' below'
  have heq : t = t' ↔ nameSet nss.flatten = nameSet nss'.flatten := by
    rw [← Option.some_inj, ← ht', eq_comm, Ty.either?_eq_some_iff, Ty.either?_eq_some_iff.mp ht]
  refine ⟨t, t', ⟨hfinish, ht⟩, ⟨hfinish', ht'⟩, ?_, Ty.contains_iff ht, ?_, heq, ?_⟩
  · -- the names of the grouped types are the same, so that they make up the same type
    intro g hg c
    obtain ⟨u, hu, hbuild⟩ := g.build_ok c.defaultType c.frames
    have htypes : nameSet (g.types.flatMap Ty.names) = nameSet (ts.flatMap Ty.names) := by
      ext n
      simp only [mem_nameSet, List.mem_flatMap, hg]
    have hut : u = t := by
      apply Ty.eq_of_toFinset_eq
      rw [Ty.either?_eq_some_iff.mp hu, Ty.either?_eq_some_iff.mp ht, htypes, hnss.nameSet_flatten]
    rwa [hut] at hbuild
  · exact t.names_sorted.imp bytes_lt
  · intro hsets
    obtain rfl := heq.mpr hsets
    exact ⟨rfl, rfl⟩

/-- A list with an either-type in it, one of the same names in another order and another case, and
the types of the first one in a list inside a list. -/
theorem finish_either_canonical_blocks :
  let block : Ty := .primitive "BLOCK"
  let tableOrBlock : Ty := (Ty.primitive "Table").insert "block"
  let b : Builder := ⟨none, [.ty block, .ty tableOrBlock, .opened .either, .opened .negation]⟩
  let b' : Builder := ⟨none, [.ty (.primitive "table"), .ty block, .opened .either]⟩
  let g : Grouping := .either (.single block) [.either (.single tableOrBlock) [.single block]]
  b.ListsTypes [tableOrBlock, block] [.opened .negation] ∧
    b'.ListsTypes [block, .primitive "table"] [] ∧
    AreNamed [["Table", "block"], ["BLOCK"]] [tableOrBlock, block] ∧
    AreNamed [["BLOCK"], ["table"]] [block, .primitive "table"] ∧
    (∀ u, u ∈ g.types ↔ u ∈ [tableOrBlock, block]) ∧
    ∃ t, Builder.finish .either b = .ok () ⟨none, [.ty t, .opened .negation]⟩ ∧
      Builder.finish .either b' = .ok () ⟨none, [.ty t]⟩ ∧
      g.build (.new none) = .ok () ⟨none, [.ty t]⟩ ∧ t.contains "tABLE" ∧
      t.names.Pairwise fun m n => bytes m < bytes n
  := by
  intro block tableOrBlock b b' g
  have hb : b.ListsTypes [tableOrBlock, block] [.opened .negation] := ⟨by simp, rfl⟩
  have hb' : b'.ListsTypes [block, .primitive "table"] [] := ⟨by simp, rfl⟩
  have hnamed : AreNamed [["Table", "block"], ["BLOCK"]] [tableOrBlock, block] :=
    .cons rfl (.cons rfl .nil)
  have hnamed' : AreNamed [["BLOCK"], ["table"]] [block, .primitive "table"] :=
    .cons rfl (.cons rfl .nil)
  have hg : ∀ u, u ∈ g.types ↔ u ∈ [tableOrBlock, block] := by
    intro u
    simp only [g, Grouping.types, Grouping.typesAll, List.mem_append, List.mem_cons,
      List.not_mem_nil]
    tauto
  have hsets : nameSet [["Table", "block"], ["BLOCK"]].flatten
      = nameSet [["BLOCK"], ["table"]].flatten := by
    have htable : "Table".toLower = "table".toLower := by cbv
    have hblock : "block".toLower = "BLOCK".toLower := by cbv
    ext n
    simp only [mem_nameSet, List.flatten_cons, List.flatten_nil, List.cons_append, List.nil_append,
      List.exists_mem_cons_iff, List.not_mem_nil, htable, hblock]
    tauto
  obtain ⟨t, t', ⟨hfinish, -⟩, ⟨hfinish', -⟩, hbuild, hcontains, hsorted, heq, -⟩ :=
    finish_either_canonical hb hb' hnamed hnamed'
  obtain rfl := heq.mpr hsets
  have htable : sameWord "tABLE" "Table" := by cbv
  exact ⟨hb, hb', hnamed, hnamed', hg, t, hfinish, hfinish', hbuild g hg (.new none),
    (hcontains "tABLE").mpr ⟨"Table", by simp, htable⟩, hsorted⟩

end PlanLang
