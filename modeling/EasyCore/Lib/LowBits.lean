import Mathlib

/-! Two words of 32 bits that are the same in their low bits. Sums, products, the operators on bits and
    shifts to the left keep it: their low bits come from low bits. -/

namespace EasyCore.LowBits

/-- The low `n` bits are the same. -/
def Same (n : ℕ) (a b : UInt32) : Prop := a.toBitVec.setWidth n = b.toBitVec.setWidth n

variable {n k : ℕ} {a a' b b' c : UInt32}

theorem Same.refl (n : ℕ) (a : UInt32) : Same n a a := rfl

theorem Same.symm (h : Same n a b) : Same n b a := Eq.symm h

theorem Same.trans (h : Same n a b) (h' : Same n b c) : Same n a c := Eq.trans h h'

theorem Same.mono (h : Same n a b) (hk : k ≤ n) : Same k a b := by
  have hset := congrArg (BitVec.setWidth k) h
  rwa [BitVec.setWidth_setWidth_of_le _ hk, BitVec.setWidth_setWidth_of_le _ hk] at hset

/-- All bits. -/
theorem same_iff : Same 32 a b ↔ a = b := by
  rw [Same, BitVec.setWidth_eq, BitVec.setWidth_eq, UInt32.toBitVec_inj]

theorem Same.add (hn : n ≤ 32) (ha : Same n a a') (hb : Same n b b') :
    Same n (a + b) (a' + b') := by
  rw [Same] at *
  rw [UInt32.toBitVec_add, UInt32.toBitVec_add, BitVec.setWidth_add _ _ hn,
    BitVec.setWidth_add _ _ hn, ha, hb]

theorem Same.neg (hn : n ≤ 32) (ha : Same n a a') : Same n (-a) (-a') := by
  rw [Same] at *
  rw [UInt32.toBitVec_neg, UInt32.toBitVec_neg, BitVec.setWidth_neg_of_le hn,
    BitVec.setWidth_neg_of_le hn, ha]

theorem Same.sub (hn : n ≤ 32) (ha : Same n a a') (hb : Same n b b') :
    Same n (a - b) (a' - b') := by
  rw [UInt32.sub_eq_add_neg, UInt32.sub_eq_add_neg]
  exact ha.add hn (hb.neg hn)

theorem Same.mul (hn : n ≤ 32) (ha : Same n a a') (hb : Same n b b') :
    Same n (a * b) (a' * b') := by
  rw [Same] at *
  rw [UInt32.toBitVec_mul, UInt32.toBitVec_mul, BitVec.setWidth_mul _ _ hn,
    BitVec.setWidth_mul _ _ hn, ha, hb]

theorem Same.and (ha : Same n a a') (hb : Same n b b') : Same n (a &&& b) (a' &&& b') := by
  rw [Same] at *
  rw [UInt32.toBitVec_and, UInt32.toBitVec_and, BitVec.setWidth_and, BitVec.setWidth_and, ha, hb]

theorem Same.or (ha : Same n a a') (hb : Same n b b') : Same n (a ||| b) (a' ||| b') := by
  rw [Same] at *
  rw [UInt32.toBitVec_or, UInt32.toBitVec_or, BitVec.setWidth_or, BitVec.setWidth_or, ha, hb]

theorem Same.xor (ha : Same n a a') (hb : Same n b b') : Same n (a ^^^ b) (a' ^^^ b') := by
  rw [Same] at *
  rw [UInt32.toBitVec_xor, UInt32.toBitVec_xor, BitVec.setWidth_xor, BitVec.setWidth_xor, ha, hb]

theorem Same.not (hn : n ≤ 32) (ha : Same n a a') : Same n (~~~a) (~~~a') := by
  rw [Same] at *
  rw [UInt32.toBitVec_not, UInt32.toBitVec_not, BitVec.setWidth_not hn, BitVec.setWidth_not hn, ha]

theorem Same.shl (hn : n ≤ 32) (ha : Same n a a') : Same n (a <<< b) (a' <<< b) := by
  rw [Same] at *
  rw [UInt32.toBitVec_shiftLeft, UInt32.toBitVec_shiftLeft, BitVec.shiftLeft_eq',
    BitVec.shiftLeft_eq', BitVec.setWidth_shiftLeft_of_le hn, BitVec.setWidth_shiftLeft_of_le hn, ha]

/-- What is shifted above the low bits does not count. -/
theorem same_shl {i : UInt32} (hi : n ≤ i.toNat) (hlt : i.toNat < 32) : Same n (a <<< i) 0 := by
  rw [Same, UInt32.toBitVec_shiftLeft, BitVec.shiftLeft_eq']
  have hcount : (i.toBitVec % 32).toNat = i.toNat := Nat.mod_eq_of_lt hlt
  rw [hcount]
  ext j hj
  have hlow : j < i.toNat := by omega
  simp [BitVec.getElem_setWidth, BitVec.getLsbD_shiftLeft, hlow]

/-- So it can be left out. -/
theorem Same.or_shl {i : UInt32} (hi : n ≤ i.toNat) (hlt : i.toNat < 32) :
    Same n (b ||| a <<< i) b := by
  have hor := (Same.refl n b).or (same_shl (a := a) hi hlt)
  rwa [UInt32.or_zero] at hor

/-! ### Masks and signs -/

/-- A mask of low bits leaves their number. -/
theorem toBitVec_and_mask (a : UInt32) (n : ℕ) {mask : UInt32}
    (hmask : mask.toNat = 2 ^ n - 1) :
    (a &&& mask).toBitVec = (a.toBitVec.setWidth n).setWidth 32 := by
  apply BitVec.eq_of_toNat_eq
  have hlt : a.toNat % 2 ^ n < 2 ^ 32 :=
    (Nat.mod_le _ _).trans_lt a.toNat_lt
  rw [BitVec.toNat_setWidth, BitVec.toNat_setWidth, UInt32.toNat_toBitVec, UInt32.toNat_toBitVec,
    UInt32.toNat_and, hmask, Nat.and_two_pow_sub_one_eq_mod, Nat.mod_eq_of_lt hlt]

theorem same_and_mask (a : UInt32) (hn : n < 32) {mask : UInt32}
    (hmask : mask.toNat = 2 ^ n - 1) : Same n (a &&& mask) a := by
  rw [Same, toBitVec_and_mask a n hmask, BitVec.setWidth_setWidth_of_le _ (by omega),
    BitVec.setWidth_eq]

/-- The masked number is given by the low bits. -/
theorem Same.and_mask {mask : UInt32} (hmask : mask.toNat = 2 ^ n - 1)
    (h : Same n a b) : a &&& mask = b &&& mask := by
  apply UInt32.toBitVec_inj.1
  rw [toBitVec_and_mask a n hmask, toBitVec_and_mask b n hmask, h]

/-- The low 16 bits, as a number with a sign. -/
def signed16 (a : UInt32) : UInt32 := a.toUInt16.toInt16.toInt32.toUInt32

theorem toBitVec_signed16 (a : UInt32) :
    (signed16 a).toBitVec = (a.toBitVec.setWidth 16).signExtend 32 := by
  rw [signed16, Int32.toBitVec_toUInt32, Int16.toBitVec_toInt32, UInt16.toBitVec_toInt16,
    UInt32.toBitVec_toUInt16]

theorem same_signed16 (a : UInt32) : Same 16 (signed16 a) a := by
  rw [Same, toBitVec_signed16]
  ext i hi
  have hi' : i < 32 := by omega
  simp only [BitVec.getElem_setWidth, BitVec.getLsbD_signExtend, BitVec.getLsbD_setWidth, hi, hi',
    decide_true, Bool.true_and, if_true]

theorem Same.signed16 (h : Same 16 a b) : signed16 a = signed16 b := by
  apply UInt32.toBitVec_inj.1
  rw [toBitVec_signed16, toBitVec_signed16, h]

end EasyCore.LowBits
