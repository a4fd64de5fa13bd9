import Mathlib

/-! `__rt_ffs` of kservice.c: the number, from one, of the lowest set bit of a word, by a table of
    the 256 bytes. -/

namespace EasyCore.Kernel

/-- `__lowest_bit_bitmap`. -/
def lowestBitBitmap : Array ℕ := #[
  0, 0, 1, 0, 2, 0, 1, 0, 3, 0, 1, 0, 2, 0, 1, 0,
  4, 0, 1, 0, 2, 0, 1, 0, 3, 0, 1, 0, 2, 0, 1, 0,
  5, 0, 1, 0, 2, 0, 1, 0, 3, 0, 1, 0, 2, 0, 1, 0,
  4, 0, 1, 0, 2, 0, 1, 0, 3, 0, 1, 0, 2, 0, 1, 0,
  6, 0, 1, 0, 2, 0, 1, 0, 3, 0, 1, 0, 2, 0, 1, 0,
  4, 0, 1, 0, 2, 0, 1, 0, 3, 0, 1, 0, 2, 0, 1, 0,
  5, 0, 1, 0, 2, 0, 1, 0, 3, 0, 1, 0, 2, 0, 1, 0,
  4, 0, 1, 0, 2, 0, 1, 0, 3, 0, 1, 0, 2, 0, 1, 0,
  7, 0, 1, 0, 2, 0, 1, 0, 3, 0, 1, 0, 2, 0, 1, 0,
  4, 0, 1, 0, 2, 0, 1, 0, 3, 0, 1, 0, 2, 0, 1, 0,
  5, 0, 1, 0, 2, 0, 1, 0, 3, 0, 1, 0, 2, 0, 1, 0,
  4, 0, 1, 0, 2, 0, 1, 0, 3, 0, 1, 0, 2, 0, 1, 0,
  6, 0, 1, 0, 2, 0, 1, 0, 3, 0, 1, 0, 2, 0, 1, 0,
  4, 0, 1, 0, 2, 0, 1, 0, 3, 0, 1, 0, 2, 0, 1, 0,
  5, 0, 1, 0, 2, 0, 1, 0, 3, 0, 1, 0, 2, 0, 1, 0,
  4, 0, 1, 0, 2, 0, 1, 0, 3, 0, 1, 0, 2, 0, 1, 0]

/-- The table entry of a word that holds one byte. -/
def lowestBit (byte : BitVec 32) : ℕ := lowestBitBitmap.getD byte.toNat 0

/-- `__rt_ffs`: 0 for 0. -/
def rtFfs (value : BitVec 32) : ℕ :=
  if value = 0 then 0
  else if value &&& 0xff#32 ≠ 0 then lowestBit (value &&& 0xff#32) + 1
  else if value &&& 0xff00#32 ≠ 0 then lowestBit ((value &&& 0xff00#32) >>> 8) + 9
  else if value &&& 0xff0000#32 ≠ 0 then lowestBit ((value &&& 0xff0000#32) >>> 16) + 17
  else lowestBit ((value &&& 0xff000000#32) >>> 24) + 25

/-- `k` is the lowest set bit of `v`. -/
def IsLowestBit {w : ℕ} (v : BitVec w) (k : ℕ) : Prop :=
  v.getLsbD k = true ∧ ∀ j < k, v.getLsbD j = false

theorem lowestBit_table : ∀ n : Fin 256, n ≠ 0 →
    n.val.testBit (lowestBitBitmap.getD n 0) = true ∧ lowestBitBitmap.getD n 0 < 8 ∧
      ∀ j : Fin 8, j.val < lowestBitBitmap.getD n 0 → n.val.testBit j = false := by
  decide +kernel

/-- The byte of `value` at bit `s`, shifted down. -/
def byteAt (value : BitVec 32) (s : ℕ) : BitVec 32 := (value &&& (0xff#32 <<< s)) >>> s

theorem getLsbD_ff (j : ℕ) : (0xff#32).getLsbD j = decide (j < 8) := by
  by_cases h : j < 8
  · interval_cases j <;> rfl
  · rw [decide_eq_false h]
    exact Nat.testBit_lt_two_pow (lt_of_lt_of_le (by decide : 255 < 2 ^ 8)
      (Nat.pow_le_pow_right (by decide) (by omega)))

theorem byteAt_getLsbD {value : BitVec 32} {s : ℕ} (hs : s ≤ 24) (j : ℕ) :
    (byteAt value s).getLsbD j = (decide (j < 8) && value.getLsbD (s + j)) := by
  rw [byteAt, BitVec.getLsbD_ushiftRight, BitVec.getLsbD_and, BitVec.getLsbD_shiftLeft,
    Nat.add_sub_cancel_left, getLsbD_ff, Bool.and_comm]
  by_cases hj : j < 8
  · have h1 : s + j < 32 := by omega
    simp [hj, h1]
  · simp [hj]

theorem byteAt_toNat_lt (value : BitVec 32) {s : ℕ} (hs : s ≤ 24) : (byteAt value s).toNat < 256 := by
  refine Nat.lt_pow_two_of_testBit (n := 8) _ fun i hi => ?_
  have : (byteAt value s).getLsbD i = (decide (i < 8) && value.getLsbD (s + i)) :=
    byteAt_getLsbD hs i
  rw [decide_eq_false (by omega), Bool.false_and] at this
  exact this

/-- The masked byte is zero exactly when it is after the shift. -/
theorem mask_eq_zero {value : BitVec 32} {s : ℕ} (hs : s ≤ 24) :
    value &&& (0xff#32 <<< s) = 0 ↔ ∀ j < 8, value.getLsbD (s + j) = false := by
  constructor
  · intro h j hj
    have hz : (byteAt value s).getLsbD j = false := by rw [byteAt, h]; simp
    rw [byteAt_getLsbD hs, decide_eq_true hj, Bool.true_and] at hz
    exact hz
  · intro h
    refine BitVec.eq_of_getLsbD_eq fun i hi => ?_
    rw [BitVec.getLsbD_and, BitVec.getLsbD_shiftLeft, getLsbD_ff]
    by_cases hsi : s ≤ i ∧ i - s < 8
    · have := h (i - s) hsi.2
      rw [show s + (i - s) = i by omega] at this
      simp [this]
    · have : ¬(¬i < s ∧ i - s < 8) := by omega
      simp
      grind

/-- The lowest bit of a byte that is not zero, in the word. -/
theorem lowestBit_byteAt {value : BitVec 32} {s : ℕ} (hs : s ≤ 24)
    (hne : value &&& (0xff#32 <<< s) ≠ 0) (hlow : ∀ j < s, value.getLsbD j = false) :
    IsLowestBit value (lowestBit (byteAt value s) + s) := by
  have hlt := byteAt_toNat_lt value hs
  have hne0 : (⟨(byteAt value s).toNat, hlt⟩ : Fin 256) ≠ 0 := by
    intro h0
    refine hne ((mask_eq_zero hs).2 fun j hj => ?_)
    have hz : (byteAt value s).toNat = 0 := congrArg Fin.val h0
    have : (byteAt value s).getLsbD j = false := by rw [BitVec.getLsbD, hz]; simp
    rw [byteAt_getLsbD hs, decide_eq_true hj, Bool.true_and] at this
    exact this
  obtain ⟨hbit, hk, hbelow⟩ := lowestBit_table _ hne0
  change (byteAt value s).getLsbD (lowestBit (byteAt value s)) = true at hbit
  change lowestBit (byteAt value s) < 8 at hk
  change ∀ j : Fin 8, j.val < lowestBit (byteAt value s) → (byteAt value s).getLsbD j = false at hbelow
  rw [byteAt_getLsbD hs, decide_eq_true hk, Bool.true_and, Nat.add_comm] at hbit
  refine ⟨hbit, fun j hj => ?_⟩
  by_cases hjs : j < s
  · exact hlow j hjs
  · have := hbelow ⟨j - s, by omega⟩ (by simp only; omega)
    rw [byteAt_getLsbD hs, decide_eq_true (by simp only; omega), Bool.true_and] at this
    rwa [show s + (j - s) = j by omega] at this

/-- `__rt_ffs` numbers the lowest set bit from one. -/
theorem rtFfs_spec {value : BitVec 32} (h : value ≠ 0) :
    ∃ k, rtFfs value = k + 1 ∧ IsLowestBit value k := by
  have m1 : (0xff00#32) = 0xff#32 <<< 8 := by decide
  have m2 : (0xff0000#32) = 0xff#32 <<< 16 := by decide
  have m3 : (0xff000000#32) = 0xff#32 <<< 24 := by decide
  have hs : value &&& 0xff#32 = byteAt value 0 := by simp [byteAt]
  simp only [rtFfs, if_neg h]
  by_cases h0 : value &&& 0xff#32 = 0
  swap
  · rw [if_pos h0]
    have hm : value &&& (0xff#32 <<< 0) ≠ 0 := by simpa using h0
    have hk := lowestBit_byteAt (by omega) hm fun j hj => absurd hj (Nat.not_lt_zero j)
    rw [Nat.add_zero, ← hs] at hk
    exact ⟨_, rfl, hk⟩
  rw [if_neg (not_not.2 h0)]
  rw [show value &&& 0xff#32 = value &&& (0xff#32 <<< 0) by simp, mask_eq_zero (by omega)] at h0
  by_cases h1 : value &&& 0xff00#32 = 0
  swap
  · rw [if_pos h1, m1]
    refine ⟨_, rfl, lowestBit_byteAt (by omega) (m1 ▸ h1) fun j hj => ?_⟩
    simpa using h0 j hj
  rw [if_neg (not_not.2 h1)]
  rw [m1, mask_eq_zero (by omega)] at h1
  have l1 : ∀ j < 16, value.getLsbD j = false := fun j hj => by
    by_cases hj8 : j < 8
    · simpa using h0 j hj8
    · simpa [show 8 + (j - 8) = j by omega] using h1 (j - 8) (by omega)
  by_cases h2 : value &&& 0xff0000#32 = 0
  swap
  · rw [if_pos h2, m2]
    exact ⟨_, rfl, lowestBit_byteAt (by omega) (m2 ▸ h2) l1⟩
  rw [if_neg (not_not.2 h2), m3]
  rw [m2, mask_eq_zero (by omega)] at h2
  have l2 : ∀ j < 24, value.getLsbD j = false := fun j hj => by
    by_cases hj8 : j < 16
    · exact l1 j hj8
    · simpa [show 16 + (j - 16) = j by omega] using h2 (j - 16) (by omega)
  refine ⟨_, rfl, lowestBit_byteAt (by omega) (fun h3 => h ?_) l2⟩
  rw [mask_eq_zero (by omega)] at h3
  refine BitVec.eq_of_getLsbD_eq fun j hj => ?_
  rw [show (0 : BitVec 32).getLsbD j = false by simp]
  by_cases hj8 : j < 24
  · exact l2 j hj8
  · simpa [show 24 + (j - 24) = j by omega] using h3 (j - 24) (by omega)

theorem rtFfs_zero : rtFfs 0 = 0 := rfl

end EasyCore.Kernel
