/-!
# Runs of operations

An operation on a state may fail.  A run of operations that goes well starts each of them from
the state that those before it have led to.
-/

namespace PlanLang

variable {ε σ α β γ : Type}

/-- After an operation that goes well, the next one starts from the state it has led to. -/
theorem bind_ok {x : EStateM ε σ α} {f : α → EStateM ε σ β} {s s' : σ} {a : α}
    (h : x s = .ok a s') :
  (x >>= f) s = f a s'
  := by
  simp only [bind, EStateM.bind, h]

/-- If two operations go well one after the other, then so does each of them. -/
theorem exists_of_bind_ok {x : EStateM ε σ α} {f : α → EStateM ε σ β} {s s' : σ} {b : β}
    (h : (x >>= f) s = .ok b s') :
  ∃ a t, x s = .ok a t ∧ f a t = .ok b s'
  := by
  cases hx : x s with
  | ok a t => exact ⟨a, t, rfl, by rwa [bind_ok hx] at h⟩
  | error e t =>
    simp only [bind, EStateM.bind, hx] at h
    contradiction

theorem forM_cons_ok {step : γ → EStateM ε σ PUnit} {x : γ} {s s' : σ} (xs : List γ)
    (h : step x s = .ok () s') :
  (forM (x :: xs) step : EStateM ε σ PUnit) s = (forM xs step : EStateM ε σ PUnit) s'
  := by
  rw [List.forM_cons]
  apply bind_ok h

theorem forM_append_ok {step : γ → EStateM ε σ PUnit} {xs : List γ} {s s' : σ} (ys : List γ)
    (h : (forM xs step : EStateM ε σ PUnit) s = .ok () s') :
  (forM (xs ++ ys) step : EStateM ε σ PUnit) s = (forM ys step : EStateM ε σ PUnit) s'
  := by
  rw [List.forM_append]
  apply bind_ok h

theorem exists_of_forM_cons_ok {step : γ → EStateM ε σ PUnit} {x : γ} {xs : List γ} {s s' : σ}
    (h : (forM (x :: xs) step : EStateM ε σ PUnit) s = .ok () s') :
  ∃ t, step x s = .ok () t ∧ (forM xs step : EStateM ε σ PUnit) t = .ok () s'
  := by
  rw [List.forM_cons] at h
  obtain ⟨_, t, hx, hxs⟩ := exists_of_bind_ok h
  exact ⟨t, hx, hxs⟩

/-- The beginning of a run that goes well goes well. -/
theorem exists_of_forM_append_ok {step : γ → EStateM ε σ PUnit} {xs ys : List γ} {s s' : σ}
    (h : (forM (xs ++ ys) step : EStateM ε σ PUnit) s = .ok () s') :
  ∃ t, (forM xs step : EStateM ε σ PUnit) s = .ok () t
  := by
  rw [List.forM_append] at h
  obtain ⟨_, t, hxs, -⟩ := exists_of_bind_ok h
  exact ⟨t, hxs⟩

end PlanLang
