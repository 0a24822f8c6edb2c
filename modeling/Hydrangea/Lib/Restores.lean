import Mathlib.Logic.Basic

/-! Computations on a state that may not return, and what they leave in one component of it.
-/

universe u

variable {σ α β : Type u} {γ : Type*}

/-- Wherever it returns, a computation leaves the component as it was. -/
def Restores (component : σ → γ) (x : StateT σ Option α) : Prop :=
  ∀ s a s', x s = some (a, s') → component s' = component s

/-- Wherever it returns, a computation leaves a value in the component. -/
def Leaves (component : σ → γ) (v : γ) (x : StateT σ Option α) : Prop :=
  ∀ s a s', x s = some (a, s') → component s' = v

variable {component : σ → γ} {v : γ} {x : StateT σ Option α} {f : α → StateT σ Option β}

/-- Where a computation returns, its first part returns, and the rest from there. -/
theorem StateT.bind_eq_some {s s' : σ} {b : β} (returns : (x >>= f) s = some (b, s'))
    : ∃ a t, x s = some (a, t) ∧ f a t = some (b, s') := by
  obtain ⟨⟨a, t⟩, first, rest⟩ := Option.bind_eq_some_iff.mp returns
  exact ⟨a, t, first, rest⟩

theorem Restores.pure (a : α) : Restores component (Pure.pure a : StateT σ Option α) := by
  intro s a' s' returns
  obtain ⟨-, rfl⟩ := Prod.mk.inj (Option.some.inj returns)
  rfl

/-- Reading and changing other components. -/
theorem Restores.modifyGet {g : σ → α × σ} (other : ∀ s, component (g s).2 = component s)
    : Restores component (StateT.modifyGet g : StateT σ Option α) := by
  intro s a s' returns
  have same : (g s).2 = s' := congrArg Prod.snd (Option.some.inj returns)
  rw [← same, other]

theorem Restores.bind (first : Restores component x) (rest : ∀ a, Restores component (f a))
    : Restores component (x >>= f) := by
  intro s b s' returns
  obtain ⟨a, t, returned, returned'⟩ := StateT.bind_eq_some returns
  rw [rest a t b s' returned', first s a t returned]

/-- A computation that saves the component first and in the end leaves what was saved. -/
theorem Restores.save {saved : α → γ}
    (saves : ∀ s a s', x s = some (a, s') → saved a = component s)
    (rest : ∀ a, Leaves component (saved a) (f a))
    : Restores component (x >>= f) := by
  intro s b s' returns
  obtain ⟨a, t, returned, returned'⟩ := StateT.bind_eq_some returns
  rw [rest a t b s' returned', saves s a t returned]

/-- What a computation leaves does not depend on what comes before. -/
theorem Leaves.after (rest : ∀ a, Leaves component v (f a)) : Leaves component v (x >>= f) := by
  intro s b s' returns
  obtain ⟨a, t, -, returned⟩ := StateT.bind_eq_some returns
  exact rest a t b s' returned

theorem Leaves.bind (first : Leaves component v x) (rest : ∀ a, Restores component (f a))
    : Leaves component v (x >>= f) := by
  intro s b s' returns
  obtain ⟨a, t, returned, returned'⟩ := StateT.bind_eq_some returns
  rw [rest a t b s' returned', first s a t returned]

theorem Restores.ite {c : Prop} [Decidable c] {y : StateT σ Option α}
    (hx : c → Restores component x) (hy : ¬ c → Restores component y)
    : Restores component (if c then x else y) := by
  split
  · exact hx ‹_›
  · exact hy ‹_›

theorem Leaves.ite {c : Prop} [Decidable c] {y : StateT σ Option α}
    (hx : c → Leaves component v x) (hy : ¬ c → Leaves component v y)
    : Leaves component v (if c then x else y) := by
  split
  · exact hx ‹_›
  · exact hy ‹_›
