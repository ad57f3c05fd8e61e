import PlanLang.Proofs.Confinement.Outline
import PlanLang.Proofs.Reading.Outline

/-!
# The order of sections

The headings of a description come in the order of its layout.  So other than actions there is at
most one section of a kind.
-/

namespace PlanLang

open Reader

/-! ### Headings in order -/

namespace Heading

/-- The kind of the section that a heading announces. -/
def kind? : Heading → Option SectionKind
  | requirements => none
  | contents k => some k

theorem following_suffix (h : Heading) (allowed : List Heading) :
  h.following allowed <:+ allowed
  := by
  have hdrop := List.dropWhile_suffix (l := allowed) (· ≠ h)
  unfold following
  split
  · apply List.nil_suffix
  · rename_i g gs hgs
    rw [hgs] at hdrop
    split
    · exact hdrop
    · exact (List.suffix_cons g gs).trans hdrop

/-- Only a heading that repeats may come after itself. -/
theorem repeats_of_mem_following {h : Heading} {allowed : List Heading} (hnodup : allowed.Nodup)
    (hmem : h ∈ h.following allowed) :
  h.repeats
  := by
  have hdrop := List.dropWhile_suffix (l := allowed) (· ≠ h)
  unfold following at hmem
  split at hmem
  · contradiction
  · rename_i g gs hgs
    have hg : g = h := by
      have hhead := List.head?_dropWhile_not (· ≠ h) allowed
      rw [hgs] at hhead
      simpa using hhead
    subst hg
    rw [hgs] at hdrop
    have hnot : g ∉ gs := (List.nodup_cons.mp (hnodup.sublist hdrop.sublist)).1
    split at hmem
    · assumption
    · contradiction

/-- Headings in order are among those that are allowed, and only those that repeat come several
times. -/
theorem pairwise_of_areInOrder {allowed hs : List Heading} (hnodup : allowed.Nodup)
    (h : areInOrder allowed hs) :
  (∀ g ∈ hs, g ∈ allowed) ∧ hs.Pairwise fun g g' => g = g' → g.repeats
  := by
  induction hs generalizing allowed with
  | nil => exact ⟨nofun, .nil⟩
  | cons g hs ih =>
    rw [areInOrder, Bool.and_eq_true, decide_eq_true_eq] at h
    have hsuffix := g.following_suffix allowed
    obtain ⟨hmem, hpairwise⟩ := ih (hnodup.sublist hsuffix.sublist) h.2
    constructor
    · rw [List.forall_mem_cons]
      exact ⟨h.1, fun g' hg' => hsuffix.subset (hmem g' hg')⟩
    · rw [List.pairwise_cons]
      refine ⟨?_, hpairwise⟩
      rintro g' hg' rfl
      apply repeats_of_mem_following hnodup (hmem g hg')

/-- There are several sections of a kind only if they are actions. -/
theorem pairwise_kinds {hs : List Heading} (h : hs.Pairwise fun g g' => g = g' → g.repeats) :
  (hs.filterMap kind?).Pairwise fun k k' => k = k' → k = .action
  := by
  rw [List.pairwise_filterMap]
  apply h.imp
  rintro g g' hrepeats k hk k' hk' rfl
  cases g with
  | requirements => contradiction
  | contents k₁ =>
    cases g' with
    | requirements => contradiction
    | contents k₂ =>
      cases hk
      cases hk'
      simpa [repeats] using hrepeats rfl

end Heading

/-! ### Reading headings -/

namespace Outline

/-- The sections of a description are announced by headings in order. -/
theorem areInOrder_of_sections {unsupported : List String} (n : Nat)
    {s s' : List Heading × Outline} {c c' : Cursor}
    (h : (untilClosingWithin (nextSection unsupported) n s c).2 = .ok (s', c')) :
  ∃ hs, Heading.areInOrder s.1 hs ∧
    s'.2.sections.map Prod.fst = s.2.sections.map Prod.fst ++ hs.filterMap Heading.kind?
  := by
  have hone : ∀ {s s' : List Heading × Outline} {c c' : Cursor},
      (nextSection unsupported s c).2 = .ok (s', c') → ∃ h ∈ s.1, s'.1 = h.following s.1 ∧
        s'.2.sections.map Prod.fst = s.2.sections.map Prod.fst ++ [h].filterMap Heading.kind? := by
    intro s s' c c' hsection
    obtain ⟨h, c₁, hheading, hrest⟩ := exists_of_bind hsection
    obtain ⟨o, _, henter, hpure⟩ := exists_of_bind hrest
    cases hpure
    obtain ⟨_, _, -, -, -, hallowed⟩ := rest_of_heading hheading
    obtain ⟨-, hsections, -⟩ := rest_of_enter henter
    refine ⟨h, hallowed, rfl, ?_⟩
    rw [hsections, List.map_append]
    cases h <;> rfl
  induction n generalizing s c with
  | zero =>
    obtain ⟨h', hallowed, -, hsections⟩ := hone h
    refine ⟨[h'], ?_, hsections⟩
    simpa [Heading.areInOrder] using hallowed
  | succ n ih =>
    rcases cases_of_untilClosingWithin h with ⟨rfl, -⟩ | ⟨s'', c₂, hsection, hrest⟩
    · exact ⟨[], rfl, (List.append_nil _).symm⟩
    · obtain ⟨h', hallowed, hfollowing, hsections⟩ := hone hsection
      obtain ⟨hs, horder, hkinds⟩ := ih hrest
      refine ⟨h' :: hs, ?_, ?_⟩
      · rw [Heading.areInOrder, decide_eq_true hallowed, Bool.true_and, ← hfollowing]
        exact horder
      · rw [hkinds, hsections, List.append_assoc, ← List.filterMap_append]
        rfl

/-- No two sections of a description are of the same kind, unless they are actions. -/
theorem pairwise_of_body {l : Layout} (hnodup : l.headings.Nodup) {o : Outline} {c c' : Cursor}
    (h : (body l c).2 = .ok (o, c')) :
  (o.sections.map Prod.fst).Pairwise fun k k' => k = k' → k = .action
  := by
  obtain ⟨s, c'', huntil, hrest⟩ := exists_of_bind h
  obtain ⟨_, c''', -, hrest⟩ := exists_of_bind hrest
  cases hrest
  obtain ⟨hs, horder, hkinds⟩ := areInOrder_of_sections _ huntil
  rw [hkinds]
  apply Heading.pairwise_kinds (Heading.pairwise_of_areInOrder hnodup horder).2

end Outline

end PlanLang
