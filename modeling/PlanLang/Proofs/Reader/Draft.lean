import PlanLang.Proofs.Draft.Assembly
import PlanLang.Proofs.Reader.TypedList
import PlanLang.Reader.Draft

/-!
# Following the reports of readers

A draft that accepts the events of a report can follow it until a requirement is missing.  So the
draft of a report that is accepted fails where the check of what is needed fails, and otherwise
where the reader stops.
-/

open Computability

namespace PlanLang

/-! ### Checking what is needed -/

namespace Gate

/-- Checks that the gate allows what is needed at each of the steps. -/
def check (gate : Gate) : List (Position × Step) → Except SyntaxError Unit
  | [] => .ok ()
  | (p, .need r what) :: ps =>
    if gate.allows r then gate.check ps
    else .error ⟨p, .missingRequirement r what⟩
  | (_, .event _) :: ps => gate.check ps

/-- The check fails at a step that needs what the gate does not allow. -/
theorem exists_of_check_error {gate : Gate} {ps : List (Position × Step)} {e : SyntaxError}
    (h : gate.check ps = .error e) :
  ∃ r what, e.kind = .missingRequirement r what ∧ gate.allows r = false ∧
    (e.position, .need r what) ∈ ps
  := by
  induction ps with
  | nil => contradiction
  | cons p ps ih =>
    have hrest : gate.check ps = .error e → ∃ r what, e.kind = .missingRequirement r what ∧
        gate.allows r = false ∧ (e.position, .need r what) ∈ p :: ps := by
      intro hps
      obtain ⟨r, what, hkind, hallows, hmem⟩ := ih hps
      exact ⟨r, what, hkind, hallows, List.mem_cons_of_mem _ hmem⟩
    obtain ⟨position, step⟩ := p
    cases step with
    | need r what =>
      by_cases hgate : gate.allows r
      · rw [check, if_pos hgate] at h
        apply hrest h
      · rw [check, if_neg hgate, Except.error.injEq] at h
        subst h
        exact ⟨r, what, rfl, by simpa using hgate, List.mem_cons_self⟩
    | event e' =>
      rw [check] at h
      apply hrest h

/-- The check succeeds if and only if the gate allows all that is needed. -/
theorem check_ok_iff {gate : Gate} {ps : List (Position × Step)} :
  gate.check ps = .ok () ↔ ∀ r ∈ Step.needs (ps.map Prod.snd), gate.allows r
  := by
  induction ps with
  | nil => simp [check]
  | cons p ps ih =>
    obtain ⟨position, step⟩ := p
    cases step with
    | need r what =>
      by_cases hgate : gate.allows r
      · simp [check, hgate, ih]
      · simp [check, hgate]
    | event e => simp [check, ih]

theorem check_unlimited (ps : List (Position × Step)) :
  unlimited.check ps = .ok ()
  := check_ok_iff.mpr fun _ _ => rfl

end Gate

/-- If the events of a report are accepted, following it stops only where the check does. -/
theorem Draft.follow_eq (gate : Gate) {ps : List (Position × Step)} {d d' : Draft}
    (h : onEvents (Step.events (ps.map Prod.snd)) d = .ok () d') :
  d.follow gate ps = (gate.check ps).map fun _ => d'
  := by
  induction ps generalizing d with
  | nil =>
    cases h
    rfl
  | cons p ps ih =>
    obtain ⟨position, step⟩ := p
    cases step with
    | need r what =>
      rw [follow, Gate.check, ih (d := d) h]
      split <;> rfl
    | event event =>
      obtain ⟨t, hevent, hrest⟩ := exists_of_forM_cons_ok h
      rw [follow, Gate.check, hevent]
      apply ih hrest

namespace Reader

variable {α : Type}

/-! ### Reports that drafts accept -/

/-- The reports that every draft with an empty builder accepts and notes. -/
def notedReports (T : Option Ty) : Language Step :=
  {ss | ∃ note, Draft.Notes T (Step.events ss) note}

/-- Whatever a reader with noted reports has reported when it ends or stops is accepted. -/
theorem Emits.accepted {r : Reader α} {T : Option Ty} (h : r.Emits (notedReports T)) (c : Cursor) :
  ∃ d, Draft.onEvents (Step.events (r.steps c)) (.new T) = .ok () d
  := by
  cases hr : (r c).2 with
  | ok p =>
    obtain ⟨note, hnote⟩ := (h c).whole hr
    exact ⟨_, (hnote (.new T) rfl).1⟩
  | error e =>
    obtain ⟨-, hnil | ⟨_, ⟨note, hnote⟩, ⟨rest, rfl⟩⟩⟩ := (h c).part hr
    · rw [hnil]
      exact ⟨.new T, rfl⟩
    · have hrun := (hnote (.new T) rfl).1
      rw [Step.events_append] at hrun
      apply exists_of_forM_append_ok hrun

/-- If what a reader reports is accepted, its draft fails where the check of what is needed fails,
and otherwise where the reader stops. -/
theorem draft_eq {r : Reader α} {T : Option Ty} {tokens : List Token} {d : Draft} (gate : Gate)
    (h : Draft.onEvents (Step.events (r.steps (.start tokens))) (.new T) = .ok () d) :
  r.draft gate T tokens = do
    gate.check (r (.start tokens)).1
    let (a, c) ← (r (.start tokens)).2
    return (a, d, c)
  := by
  have hfollow := Draft.follow_eq gate h
  simp only [draft, hfollow]
  cases gate.check (r (.start tokens)).1 with
  | error e => rfl
  | ok u => rfl

/-- A reader with noted reports stops because of the text or a missing requirement only. -/
theorem Emits.isTextual_of_draft {r : Reader α} {T : Option Ty} (h : r.Emits (notedReports T))
    {gate : Gate} {tokens : List Token} {e : SyntaxError}
    (herror : r.draft gate T tokens = .error e) :
  e.isTextual
  := by
  obtain ⟨d, hd⟩ := h.accepted (.start tokens)
  rw [draft_eq gate hd] at herror
  cases hcheck : gate.check (r (.start tokens)).1 with
  | error e' =>
    obtain rfl : e' = e := by simpa [hcheck, bind, Except.bind] using herror
    obtain ⟨req, what, hkind, -, -⟩ := Gate.exists_of_check_error hcheck
    rw [SyntaxError.isTextual, hkind]
  | ok u =>
    cases hr : (r (.start tokens)).2 with
    | error e' =>
      obtain rfl : e' = e := by simpa [hcheck, bind, Except.bind, hr] using herror
      apply ((h _).part hr).1
    | ok p => simp [hcheck, bind, Except.bind, hr, pure, Except.pure] at herror

/-- A reader that comes to its end with a report that is accepted, and that needs nothing that
the gate does not allow, gives the draft of its report. -/
theorem draft_ok {r : Reader α} {gate : Gate} {T : Option Ty} {tokens : List Token} {a : α}
    {c : Cursor} {note : Draft → Draft} (hr : (r (.start tokens)).2 = .ok (a, c))
    (hgate : ∀ req what, .need req what ∈ r.steps (.start tokens) → gate.allows req)
    (hnote : Draft.Notes T (Step.events (r.steps (.start tokens))) note) :
  r.draft gate T tokens = .ok (a, note (.new T), c)
  := by
  have hcheck : gate.check (r (.start tokens)).1 = .ok () := by
    rw [Gate.check_ok_iff]
    intro req hreq
    obtain ⟨what, hmem⟩ := Step.mem_needs.mp hreq
    apply hgate req what hmem
  rw [draft_eq gate (hnote (.new T) rfl).1, hcheck, hr]
  rfl

end Reader

end PlanLang
