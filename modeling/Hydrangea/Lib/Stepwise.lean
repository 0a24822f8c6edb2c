import Mathlib.Tactic

/-! Machines that take one input after another, and what holds of all their steps. -/

namespace Stepwise

variable {σ ι : Type*} {step : σ → ι → σ} {P Q : σ → ι → Prop}

/-- Every step of a run meets a condition on the state before it and the input. -/
def Always (step : σ → ι → σ) (P : σ → ι → Prop) : σ → List ι → Prop
  | _, [] => True
  | s, i :: inputs => P s i ∧ Always step P (step s i) inputs

/-- These are the steps behind all parts of the run, by induction on the inputs. -/
theorem always_iff_prefix {s : σ} {inputs : List ι}
    : Always step P s inputs
      ↔ ∀ earlier i, earlier ++ [i] <+: inputs → P (earlier.foldl step s) i := by
  induction inputs generalizing s with
  | nil =>
      refine iff_of_true trivial (fun earlier i inside => ?_)
      exact absurd (List.prefix_nil.mp inside) (by simp)
  | cons first inputs ih =>
      rw [Always, ih]
      constructor
      · rintro ⟨here, later⟩ earlier i inside
        cases earlier with
        | nil =>
            obtain ⟨rfl, -⟩ := List.cons_prefix_cons.mp inside
            exact here
        | cons other earlier =>
            obtain ⟨rfl, further⟩ := List.cons_prefix_cons.mp inside
            exact later earlier i further
      · intro all
        refine ⟨all [] first (by simp), fun earlier i inside => ?_⟩
        exact all (first :: earlier) i (List.cons_prefix_cons.mpr ⟨rfl, inside⟩)

/-- Two conditions that agree as long as an invariant holds, which steps that meet the first one
keep, are met by the same runs. By induction on the inputs.
-/
theorem always_congr (Inv : σ → Prop) (agree : ∀ s i, Inv s → (P s i ↔ Q s i))
    (keeps : ∀ s i, Inv s → P s i → Inv (step s i)) {s : σ} (inv : Inv s) (inputs : List ι)
    : Always step P s inputs ↔ Always step Q s inputs := by
  induction inputs generalizing s with
  | nil => exact Iff.rfl
  | cons first inputs ih =>
      rw [Always, Always, agree s first inv]
      refine and_congr_right (fun meets => ih (keeps s first inv ?_))
      exact (agree s first inv).mpr meets

end Stepwise
