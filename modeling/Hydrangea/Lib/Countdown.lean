import Mathlib.Logic.Function.Iterate
import Mathlib.Tactic

/-! Loops `while (body && t-- > 0)` on an unsigned counter of 32 bits, which wraps when the body
still goes on at zero.
-/

namespace Countdown

variable {σ : Type*}

/-- The counter and the state after a loop. The body also tells whether it goes on. -/
def run (body : σ → Bool × σ) : (t : Nat) → σ → Nat × σ
  | 0, s =>
      let (more, s) := body s
      (if more then 2 ^ 32 - 1 else 0, s)
  | t + 1, s =>
      let (more, s) := body s
      if more then run body t s else (t + 1, s)

def after (body : σ → Bool × σ) (k : Nat) (s : σ) : σ :=
  (fun s => (body s).2)^[k] s

variable {body : σ → Bool × σ}

theorem after_zero (s : σ) : after body 0 s = s := rfl

theorem after_succ (k : Nat) (s : σ) : after body (k + 1) s = after body k (body s).2 :=
  Function.iterate_succ_apply _ k s

theorem after_succ' (k : Nat) (s : σ) : after body (k + 1) s = (body (after body k s)).2 :=
  Function.iterate_succ_apply' _ k s

/-- A loop ends with the first round that does not go on, and the counter tells how many went on
before; or all rounds go on that the counter allows, one more than it counts, and it wraps. By
induction on the counter.
-/
theorem run_cases (body : σ → Bool × σ) (t : Nat) (s : σ)
    : (∃ k ≤ t, (∀ j < k, (body (after body j s)).1 = true) ∧ (body (after body k s)).1 = false
        ∧ run body t s = (t - k, after body (k + 1) s))
      ∨ (∀ j ≤ t, (body (after body j s)).1 = true)
        ∧ run body t s = (2 ^ 32 - 1, after body (t + 1) s) := by
  induction t generalizing s with
  | zero =>
      cases more : (body s).1 with
      | false =>
          refine .inl ⟨0, le_rfl, fun j below => absurd below (Nat.not_lt_zero j), more, ?_⟩
          simp [run, more, after_succ, after_zero]
      | true =>
          refine .inr ⟨fun j below => ?_, ?_⟩
          · obtain rfl := Nat.le_zero.mp below
            exact more
          · simp [run, more, after_succ, after_zero]
  | succ t ih =>
      cases more : (body s).1 with
      | false =>
          refine .inl ⟨0, Nat.zero_le _, fun j below => absurd below (Nat.not_lt_zero j), more, ?_⟩
          simp [run, more, after_succ, after_zero]
      | true =>
          have first : run body (t + 1) s = run body t (body s).2 := by simp [run, more]
          rw [first]
          rcases ih (body s).2 with ⟨k, inside, goes, stops, ended⟩ | ⟨goes, ended⟩
          · refine .inl ⟨k + 1, Nat.succ_le_succ inside, fun j below => ?_, ?_, ?_⟩
            · cases j with
              | zero => exact more
              | succ j =>
                  rw [after_succ]
                  exact goes j (Nat.lt_of_succ_lt_succ below)
            · rw [after_succ]
              exact stops
            · rw [ended, after_succ (k + 1) s, Nat.add_sub_add_right]
          · refine .inr ⟨fun j below => ?_, ?_⟩
            · cases j with
              | zero => exact more
              | succ j =>
                  rw [after_succ]
                  exact goes j (Nat.le_of_succ_le_succ below)
            · rw [ended, after_succ (t + 1) s]

end Countdown
