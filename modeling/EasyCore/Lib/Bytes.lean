import Mathlib

/-! Stretches of a memory.

        p ── p + 1 ── ⋯ ── e       `stretch m p e` is the values from `p` up to `e` -/

namespace EasyCore.Bytes
open Function

variable {α : Type*} {m m' : ℕ → α} {p q e i : ℕ} {a : α}

/-- The values from `p` up to `e`. -/
def stretch (m : ℕ → α) (p e : ℕ) : List α := (List.range' p (e - p)).map m

theorem stretch_length (m : ℕ → α) (p e : ℕ) : (stretch m p e).length = e - p := by
  rw [stretch, List.length_map, List.length_range']

theorem stretch_nil (h : e ≤ p) : stretch m p e = [] := by
  rw [stretch, Nat.sub_eq_zero_of_le h]
  rfl

theorem stretch_cons (h : p < e) : stretch m p e = m p :: stretch m (p + 1) e := by
  obtain ⟨n, rfl⟩ := Nat.exists_eq_add_of_lt h
  rw [stretch, stretch, show p + n + 1 - p = n + 1 by omega, show p + n + 1 - (p + 1) = n by omega,
    List.range'_succ, List.map_cons]

theorem stretch_congr (h : ∀ i, p ≤ i → i < e → m i = m' i) : stretch m p e = stretch m' p e := by
  refine List.map_congr_left fun i hi => ?_
  obtain ⟨hp, he⟩ := List.mem_range'_1.1 hi
  exact h i hp (by omega)

theorem stretch_append (hp : p ≤ q) (hq : q ≤ e) : stretch m p q ++ stretch m q e = stretch m p e := by
  obtain ⟨k, rfl⟩ := Nat.exists_eq_add_of_le hp
  obtain ⟨n, rfl⟩ := Nat.exists_eq_add_of_le hq
  rw [stretch, stretch, stretch, ← List.map_append, show p + k - p = k by omega,
    show p + k + n - (p + k) = n by omega, show p + k + n - p = k + n by omega, List.range'_append_1]

/-- The parts of a stretch are the stretches of the parts. -/
theorem stretch_eq_append {s t : List α} (h : stretch m p e = s ++ t) :
    stretch m p (p + s.length) = s ∧ stretch m (p + s.length) e = t := by
  have hlen : e - p = s.length + t.length := by rw [← stretch_length m p e, h, List.length_append]
  have hsplit : stretch m p (p + s.length) ++ stretch m (p + s.length) e = s ++ t := by
    rcases le_or_gt (p + s.length) e with hle | hlt
    · rw [stretch_append (Nat.le_add_right p _) hle, h]
    · have hs : s = [] := List.length_eq_zero_iff.1 (by omega)
      rw [hs, List.length_nil, add_zero, stretch_nil le_rfl, h, hs, List.nil_append]
  exact List.append_inj hsplit (by rw [stretch_length]; omega)

theorem mem_stretch : a ∈ stretch m p e ↔ ∃ i, p ≤ i ∧ i < e ∧ m i = a := by
  simp only [stretch, List.mem_map, List.mem_range'_1]
  constructor
  · rintro ⟨i, ⟨hp, he⟩, h⟩
    exact ⟨i, hp, by omega, h⟩
  · rintro ⟨i, hp, he, h⟩
    exact ⟨i, ⟨hp, by omega⟩, h⟩

/-- A value outside of the stretch does not matter to it. -/
theorem stretch_update (h : i < p ∨ e ≤ i) : stretch (update m i a) p e = stretch m p e := by
  refine stretch_congr fun j hp he => update_of_ne ?_ a m
  omega

end EasyCore.Bytes
