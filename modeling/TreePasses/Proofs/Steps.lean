-- Steps that may fail, one after the other. A run that goes well has gone well at every step, so it
-- keeps what each step keeps; a run that fails has failed at one step, with those before it done.

namespace TreePasses

section

variable {ε α β : Type} {x : Except ε α} {f : α → Except ε β}

theorem bind_eq_ok_iff {b : β} : (x >>= f) = .ok b ↔ ∃ a, x = .ok a ∧ f a = .ok b := by
  cases x with
  | error e =>
    constructor
    · intro h
      cases h
    · rintro ⟨a, ha, -⟩
      cases ha
  | ok a =>
    constructor
    · intro h
      exact ⟨a, rfl, h⟩
    · rintro ⟨_, ⟨⟩, h⟩
      exact h

theorem bind_eq_error_iff {e : ε} :
    (x >>= f) = .error e ↔ x = .error e ∨ ∃ a, x = .ok a ∧ f a = .error e := by
  cases x with
  | error e' =>
    constructor
    · intro h
      cases h
      exact .inl rfl
    · rintro (h | ⟨a, ha, -⟩)
      · cases h
        rfl
      · cases ha
  | ok a =>
    constructor
    · intro h
      exact .inr ⟨a, rfl, h⟩
    · rintro (h | ⟨_, ⟨⟩, h⟩)
      · cases h
      · exact h

end

section

variable {ε σ α : Type} {step : σ → α → Except ε σ} {s : σ} {xs : List α}

/-- What holds at first, and after one more step whenever it holds before it, holds after a whole
run. -/
theorem foldlM_induction {motive : List α → σ → Prop} {last : σ}
    (h : xs.foldlM step s = .ok last) (nil : motive [] s)
    (snoc : ∀ before s' x next, motive before s' → step s' x = .ok next →
      motive (before ++ [x]) next) : motive xs last := by
  induction xs generalizing s motive with
  | nil =>
    cases h
    exact nil
  | cons x xs ih =>
    rw [List.foldlM_cons] at h
    obtain ⟨next, hstep, hrest⟩ := bind_eq_ok_iff.mp h
    -- From here on every list of elements done has `x` before it.
    exact ih (motive := fun before => motive (x :: before)) hrest (snoc [] s x next nil hstep)
      fun before => snoc (x :: before)

/-- A run that fails does so at one step, with those before it done. -/
theorem exists_of_foldlM_eq_error {e : ε} (h : xs.foldlM step s = .error e) :
    ∃ before x rest s', xs = before ++ x :: rest ∧ before.foldlM step s = .ok s' ∧
      step s' x = .error e := by
  induction xs generalizing s with
  | nil => cases h
  | cons x xs ih =>
    rw [List.foldlM_cons] at h
    rcases bind_eq_error_iff.mp h with herror | ⟨next, hstep, hrest⟩
    · exact ⟨[], x, xs, s, rfl, rfl, herror⟩
    · obtain ⟨before, x', rest, s', rfl, hbefore, herror⟩ := ih hrest
      refine ⟨x :: before, x', rest, s', rfl, ?_, herror⟩
      rw [List.foldlM_cons, hstep]
      exact hbefore

end

end TreePasses
