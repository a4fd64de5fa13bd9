import Mathlib

/-! Endless loops: a round takes an input, and goes on or leaves the loop.

        s₀ ──▶ s₁ ──▶ s₂ ──▶ …       `continue`, or the end of the body
                      └──▶ left       `break` -/

namespace EasyCore

inductive Loop (σ : Type*)
  | running (s : σ)
  | left (s : σ)

namespace Loop

variable {σ ι : Type*} (round : σ → ι → Loop σ) (start : σ) (inputs : ℕ → ι)

/-- After some rounds; what has been left stays. -/
def after : ℕ → Loop σ
  | 0 => .running start
  | n + 1 =>
    match after n with
    | .running s => round s (inputs n)
    | .left s => .left s

variable {round start inputs}

theorem after_running {n : ℕ} {s : σ} (h : after round start inputs n = .running s) :
    after round start inputs (n + 1) = round s (inputs n) := by
  rw [after, h]

theorem after_left {n k : ℕ} {s : σ} (h : after round start inputs n = .left s) (hk : n ≤ k) :
    after round start inputs k = .left s := by
  induction hk with
  | refl => exact h
  | step _ ih => rw [after, ih]

/-- What a round keeps, and what stays when the loop has been left, holds after every round. -/
theorem after_invariant {I : ℕ → Loop σ → Prop} (hstart : I 0 (.running start))
    (hround : ∀ n s, I n (.running s) → I (n + 1) (round s (inputs n)))
    (hleft : ∀ n s, I n (.left s) → I (n + 1) (.left s)) (n : ℕ) :
    I n (after round start inputs n) := by
  induction n with
  | zero => exact hstart
  | succ n ih =>
    rw [after]
    cases h : after round start inputs n with
    | running s => exact hround n s (h ▸ ih)
    | left s => exact hleft n s (h ▸ ih)

end Loop
end EasyCore
