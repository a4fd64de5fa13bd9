import Mathlib

/-! Sets of numbers as lists of ranges, each with its beginning and its length. `Spaced lo rs` says that
    the ranges go upwards from `lo`, that none is empty and that there is a gap between any two: there
    is one such list for a set. -/

namespace EasyCore.Ranges

/-- The ranges, in order and with gaps between them, from `lo` on. -/
def Spaced : ℕ → List (ℕ × ℕ) → Prop
  | _, [] => True
  | lo, r :: rs => lo ≤ r.1 ∧ 0 < r.2 ∧ Spaced (r.1 + r.2 + 1) rs

/-- The number is in one of the ranges. -/
def Covers (rs : List (ℕ × ℕ)) (i : ℕ) : Prop := ∃ r ∈ rs, r.1 ≤ i ∧ i < r.1 + r.2

variable {lo lo' i b k : ℕ} {rs : List (ℕ × ℕ)} {r : ℕ × ℕ}

@[simp] theorem not_covers_nil : ¬ Covers [] i := by
  rintro ⟨r, hr, -⟩
  exact absurd hr List.not_mem_nil

@[simp] theorem covers_cons : Covers (r :: rs) i ↔ (r.1 ≤ i ∧ i < r.1 + r.2) ∨ Covers rs i := by
  constructor
  · rintro ⟨q, hq, hi⟩
    obtain rfl | hq := List.mem_cons.1 hq
    · exact Or.inl hi
    · exact Or.inr ⟨q, hq, hi⟩
  · rintro (hi | ⟨q, hq, hi⟩)
    · exact ⟨r, List.mem_cons_self, hi⟩
    · exact ⟨q, List.mem_cons_of_mem r hq, hi⟩

namespace Spaced

theorem mono (hle : lo' ≤ lo) (h : Spaced lo rs) : Spaced lo' rs := by
  cases rs with
  | nil => trivial
  | cons r rs => exact ⟨hle.trans h.1, h.2⟩

/-- No range begins before `lo`. -/
theorem le_of_mem : ∀ {lo : ℕ} {rs : List (ℕ × ℕ)}, Spaced lo rs → ∀ r ∈ rs, lo ≤ r.1
  | _, [], _, _, hr => absurd hr List.not_mem_nil
  | _, q :: rs, h, r, hr => by
    obtain rfl | hr := List.mem_cons.1 hr
    · exact h.1
    · have hle := le_of_mem h.2.2 r hr
      have hlo := h.1
      omega

theorem pos : ∀ {lo : ℕ} {rs : List (ℕ × ℕ)}, Spaced lo rs → ∀ r ∈ rs, 0 < r.2
  | _, [], _, _, hr => absurd hr List.not_mem_nil
  | _, q :: rs, h, r, hr => by
    obtain rfl | hr := List.mem_cons.1 hr
    · exact h.2.1
    · exact pos h.2.2 r hr

/-- Each range ends before the next ones begin, and does not touch them. -/
theorem pairwise : ∀ {lo : ℕ} {rs : List (ℕ × ℕ)}, Spaced lo rs →
    rs.Pairwise fun r q => r.1 + r.2 < q.1
  | _, [], _ => List.Pairwise.nil
  | _, r :: rs, h => by
    refine List.pairwise_cons.2 ⟨fun q hq => ?_, pairwise h.2.2⟩
    exact le_of_mem h.2.2 q hq

theorem le_of_covers (h : Spaced lo rs) (hi : Covers rs i) : lo ≤ i := by
  obtain ⟨r, hr, hle, -⟩ := hi
  exact (h.le_of_mem r hr).trans hle

end Spaced

end EasyCore.Ranges
