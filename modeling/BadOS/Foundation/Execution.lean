import Mathlib.Tactic

/-! # Runs of a labelled transition relation

A run is a list of labels with the states it passes through left out. What
every step preserves holds after every run.
-/

namespace Execution

variable {State Label : Type*} (Step : State → Label → State → Prop)

inductive Run : State → List Label → State → Prop
  | nil (s : State) : Run s [] s
  | cons {s s' s'' : State} {label : Label} {labels : List Label} (hstep : Step s label s')
      (hrun : Run s' labels s'') : Run s (label :: labels) s''

variable {Step} {s s' s'' : State} {labels labels' : List Label}

theorem Run.append (hfirst : Run Step s labels s') (hsecond : Run Step s' labels' s'') :
    Run Step s (labels ++ labels') s'' := by
  induction hfirst with
  | nil s => exact hsecond
  | cons hstep hrun ih => exact .cons hstep (ih hsecond)

/-- The invariant rule. -/
theorem Run.invariant (inv : State → Prop) (hrun : Run Step s labels s') (hinit : inv s)
    (hstep : ∀ s label s', Step s label s' → inv s → inv s') : inv s' := by
  induction hrun with
  | nil s => exact hinit
  | cons hfirst hrun ih => exact ih (hstep _ _ _ hfirst hinit)

/-- A computed run. -/
theorem Run.of_foldlM {step : State → Label → Option State}
    (hsteps : labels.foldlM step s = some s') :
    Run (fun s label s' => step s label = some s') s labels s' := by
  induction labels generalizing s with
  | nil =>
      cases hsteps
      exact .nil _
  | cons label labels ih =>
      rw [List.foldlM_cons] at hsteps
      obtain ⟨next, hstep, hrest⟩ := Option.bind_eq_some_iff.mp hsteps
      exact .cons hstep (ih hrest)

/-- The variant rule: a total step that keeps `inv` and lowers a measure until
`final` holds reaches a final state. -/
theorem exists_iterate {step : State → State} (inv : State → Prop) {final : State → Prop}
    (measure : State → ℕ)
    (hstep : ∀ s, inv s → ¬ final s → inv (step s) ∧ measure (step s) < measure s)
    (hinit : inv s) : ∃ n, inv (step^[n] s) ∧ final (step^[n] s) := by
  induction hm : measure s using Nat.strong_induction_on generalizing s with
  | _ m ih =>
      by_cases hfinal : final s
      · exact ⟨0, hinit, hfinal⟩
      · obtain ⟨hnext, hless⟩ := hstep s hinit hfinal
        obtain ⟨n, hinv, hdone⟩ := ih _ (hm ▸ hless) hnext rfl
        exact ⟨n + 1, hinv, hdone⟩

end Execution
