import Mathlib

/-! A consumer of blocks of one size: it eats its input a block at a time, and holds what has come of
    the block that is not full yet. What it does with the input does not depend on the pieces in
    which the input comes. -/

namespace EasyCore.Blocks

variable {σ α : Type*} (n : ℕ) (eat : σ → List α → σ)

/-- The state after the full blocks of `xs`, and what is left of `xs`. -/
def absorb (s : σ) (xs : List α) : σ × List α :=
  if 0 < n ∧ n ≤ xs.length then absorb (eat s (xs.take n)) (xs.drop n) else (s, xs)
termination_by xs.length
decreasing_by simp only [List.length_drop]; omega

/-- The consumer takes one item. -/
def push (s : σ × List α) (x : α) : σ × List α :=
  if n ≤ s.2.length + 1 then (eat s.1 (s.2 ++ [x]), []) else (s.1, s.2 ++ [x])

variable {n eat}

theorem absorb_short (s : σ) {xs : List α} (h : xs.length < n) : absorb n eat s xs = (s, xs) := by
  rw [absorb, if_neg (by omega)]

theorem absorb_full (hn : 0 < n) (s : σ) {xs : List α} (h : n ≤ xs.length) :
    absorb n eat s xs = absorb n eat (eat s (xs.take n)) (xs.drop n) := by
  rw [absorb, if_pos ⟨hn, h⟩]

theorem absorb_block (hn : 0 < n) (s : σ) {xs : List α} (h : xs.length = n) :
    absorb n eat s xs = (eat s xs, []) := by
  rw [absorb_full hn s h.ge, List.take_of_length_le h.le, List.drop_eq_nil_of_le h.le]
  exact absorb_short _ hn

/-- The same block over and over. -/
theorem absorb_replicate {block : List α} (hn : 0 < n) (h : block.length = n) (rest : List α) :
    ∀ (k : ℕ) (s : σ), absorb n eat s ((List.replicate k block).flatten ++ rest) =
      absorb n eat ((fun s => eat s block)^[k] s) rest := by
  intro k
  induction k with
  | zero => intro s; rfl
  | succ k ih =>
    intro s
    rw [List.replicate_succ, List.flatten_cons, List.append_assoc, absorb_full hn s (by simp; omega),
      List.take_left' h, List.drop_left' h, ih, Function.iterate_succ_apply]

/-- The second piece meets the consumer where the first has left it. -/
theorem absorb_append (hn : 0 < n) (s : σ) (xs ys : List α) :
    absorb n eat s (xs ++ ys) =
      absorb n eat (absorb n eat s xs).1 ((absorb n eat s xs).2 ++ ys) := by
  induction s, xs using absorb.induct n eat with
  | case1 s xs h ih =>
    have hlen : n ≤ (xs ++ ys).length := by rw [List.length_append]; omega
    rw [absorb_full hn s hlen, absorb_full hn s h.2, List.take_append_of_le_length h.2,
      List.drop_append_of_le_length h.2, ih]
  | case2 s xs h => rw [absorb_short s (by omega : xs.length < n)]

end EasyCore.Blocks
