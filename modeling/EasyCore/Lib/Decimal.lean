import Mathlib

/-! Decimal numerals as ASCII text: the value of a digit sequence, the numeral of a number, and what
    a sequence says that begins like a numeral and goes on in another way. -/

namespace EasyCore.Decimal

def isDigit (c : UInt8) : Bool := 48 ≤ c && c ≤ 57

def digitValue (c : UInt8) : ℕ := c.toNat - 48

/-- The value of a digit sequence, the first digit the highest. -/
def value (ds : List UInt8) : ℕ := ds.foldl (fun n c => 10 * n + digitValue c) 0

def digitOf (d : ℕ) : UInt8 := UInt8.ofNat (48 + d)

/-- The shortest digit sequence with value `n`. -/
def numeral (n : ℕ) : List UInt8 :=
  if n = 0 then [48] else ((Nat.digits 10 n).map digitOf).reverse

/-! ### Digits -/

theorem isDigit_iff (c : UInt8) : isDigit c = true ↔ 48 ≤ c.toNat ∧ c.toNat ≤ 57 := by
  simp [isDigit, UInt8.le_iff_toNat_le]

theorem digitOf_toNat {d : ℕ} (hd : d < 10) : (digitOf d).toNat = 48 + d := by
  simp only [digitOf, UInt8.toNat_ofNat']; omega

theorem isDigit_digitOf {d : ℕ} (hd : d < 10) : isDigit (digitOf d) = true := by
  rw [isDigit_iff, digitOf_toNat hd]; omega

theorem digitValue_digitOf {d : ℕ} (hd : d < 10) : digitValue (digitOf d) = d := by
  rw [digitValue, digitOf_toNat hd]; omega

theorem digitValue_lt {c : UInt8} (hc : isDigit c = true) : digitValue c < 10 := by
  rw [isDigit_iff] at hc
  simp only [digitValue]; omega

theorem digitOf_digitValue {c : UInt8} (hc : isDigit c = true) : digitOf (digitValue c) = c := by
  apply UInt8.toNat_inj.1
  rw [digitOf_toNat (digitValue_lt hc)]
  rw [isDigit_iff] at hc
  simp only [digitValue]; omega

/-! ### Values -/

theorem value_concat (ds : List UInt8) (c : UInt8) :
    value (ds ++ [c]) = 10 * value ds + digitValue c := by
  simp [value]

theorem value_eq_ofDigits (ds : List UInt8) :
    value ds = Nat.ofDigits 10 (ds.map digitValue).reverse := by
  induction ds using List.reverseRecOn with
  | nil => rfl
  | append_singleton ds c ih =>
    rw [value_concat, ih, List.map_append, List.reverse_append]
    simp [Nat.ofDigits_cons]; omega

theorem value_eq_zero (ds : List UInt8) (hds : ∀ c ∈ ds, isDigit c = true) :
    value ds = 0 ↔ ∀ c ∈ ds, c = 48 := by
  induction ds using List.reverseRecOn with
  | nil => simp [value]
  | append_singleton ds c ih =>
    have hc : digitValue c = 0 ↔ c = 48 := by
      have hdig := hds c (by simp)
      constructor
      · intro h
        rw [← digitOf_digitValue hdig, h]; rfl
      · rintro rfl; rfl
    rw [value_concat, Nat.add_eq_zero_iff, Nat.mul_eq_zero, hc,
      ih fun d hd => hds d (by simp [hd])]
    simp only [List.mem_append, List.mem_singleton]
    constructor
    · rintro ⟨h | h, rfl⟩ d (hd | rfl)
      · omega
      · omega
      · exact h d hd
      · rfl
    · intro h
      exact ⟨.inr fun d hd => h d (.inl hd), h c (.inr rfl)⟩

/-! ### Numerals -/

theorem numeral_isDigit (n : ℕ) : ∀ c ∈ numeral n, isDigit c = true := by
  intro c hc
  simp only [numeral] at hc
  split at hc
  · simp only [List.mem_singleton] at hc
    subst hc; decide
  · simp only [List.mem_reverse, List.mem_map] at hc
    obtain ⟨d, hd, rfl⟩ := hc
    exact isDigit_digitOf (Nat.digits_lt_base (by omega) hd)

theorem numeral_ne_nil (n : ℕ) : numeral n ≠ [] := by
  simp only [numeral]
  split
  · simp
  · next hn => simpa [Nat.digits_ne_nil_iff_ne_zero] using hn

theorem value_numeral (n : ℕ) : value (numeral n) = n := by
  simp only [numeral]
  split
  · next hn => subst hn; rfl
  · rw [value_eq_ofDigits, List.map_reverse, List.reverse_reverse, List.map_map]
    have hid : (Nat.digits 10 n).map (digitValue ∘ digitOf) = (Nat.digits 10 n).map id := by
      apply List.map_congr_left
      intro d hd
      exact digitValue_digitOf (Nat.digits_lt_base (by omega) hd)
    rw [hid, List.map_id, Nat.ofDigits_digits]

/-- A digit sequence without a leading zero is the numeral of its value. -/
theorem eq_numeral {c : UInt8} {ds : List UInt8} (hds : ∀ d ∈ c :: ds, isDigit d = true)
    (hc : c ≠ 48) : c :: ds = numeral (value (c :: ds)) := by
  have hne : value (c :: ds) ≠ 0 := by
    intro h
    exact hc ((value_eq_zero _ hds).1 h c (by simp))
  have hdigits : Nat.digits 10 (value (c :: ds)) = ((c :: ds).map digitValue).reverse := by
    rw [value_eq_ofDigits]
    refine Nat.digits_ofDigits 10 (by omega) _ ?_ ?_
    · intro d hd
      simp only [List.mem_reverse, List.mem_map] at hd
      obtain ⟨e, he, rfl⟩ := hd
      exact digitValue_lt (hds e he)
    · intro _
      simp only [List.map_cons, List.reverse_cons, List.getLast_append_singleton]
      intro h0
      apply hc
      rw [← digitOf_digitValue (hds c (by simp)), h0]; rfl
  have hid : (c :: ds).map (digitOf ∘ digitValue) = (c :: ds).map id := by
    apply List.map_congr_left
    intro d hd
    exact digitOf_digitValue (hds d hd)
  rw [numeral, if_neg hne, hdigits, List.map_reverse, List.reverse_reverse, List.map_map, hid,
    List.map_id]

theorem numeral_head {n : ℕ} (hn : n ≠ 0) {c : UInt8} {ds : List UInt8} (h : numeral n = c :: ds) :
    c ≠ 48 := by
  rcases List.eq_nil_or_concat (Nat.digits 10 n) with hnil | ⟨low, d, hdigits⟩
  · exact absurd hnil (Nat.digits_ne_nil_iff_ne_zero.2 hn)
  rw [List.concat_eq_append] at hdigits
  have hlt : d < 10 := Nat.digits_lt_base (by omega) (by rw [hdigits]; simp)
  have hd : d ≠ 0 := by
    have := Nat.getLast_digit_ne_zero 10 hn
    simpa [hdigits] using this
  rw [numeral, if_neg hn, hdigits] at h
  simp only [List.map_append, List.map_cons, List.map_nil, List.reverse_append,
    List.reverse_singleton, List.singleton_append, List.cons.injEq] at h
  rintro rfl
  apply hd
  rw [← digitValue_digitOf hlt, h.1]; rfl

/-- A digit sequence that begins with the first `k` digits of `n` has the value `n` iff it goes on
    with the other ones; for 0 it may be any row of zeros. -/
theorem value_take_append {n k : ℕ} (hk : 0 < k) {ds : List UInt8}
    (hds : ∀ c ∈ ds, isDigit c = true) :
    value ((numeral n).take k ++ ds) = n ↔
      ds = (numeral n).drop k ∨ n = 0 ∧ ∀ c ∈ ds, c = 48 := by
  obtain ⟨k, rfl⟩ : ∃ j, k = j + 1 := ⟨k - 1, by omega⟩
  rcases Nat.eq_zero_or_pos n with rfl | hn
  · have hzero : ∀ c ∈ 48 :: ds, isDigit c = true := by
      intro c hc
      rcases List.mem_cons.1 hc with rfl | hc
      · decide
      · exact hds c hc
    simp only [numeral, if_true, List.take_succ_cons, List.take_nil, List.singleton_append,
      value_eq_zero _ hzero, List.mem_cons, forall_eq_or_imp, List.drop_succ_cons, List.drop_nil,
      true_and]
    constructor
    · exact .inr
    · rintro (rfl | h)
      · simp
      · exact h
  · cases hnum : numeral n with
    | nil => exact absurd hnum (numeral_ne_nil n)
    | cons c tail =>
    constructor
    · intro hvalue
      rw [List.take_succ_cons, List.cons_append] at hvalue
      have hall : ∀ d ∈ c :: (tail.take k ++ ds), isDigit d = true := by
        have hn' := numeral_isDigit n
        rw [hnum] at hn'
        intro d hd
        simp only [List.mem_cons, List.mem_append] at hd
        rcases hd with rfl | hd | hd
        · exact hn' _ (by simp)
        · exact hn' d (by simp [List.mem_of_mem_take hd])
        · exact hds d hd
      have heq := eq_numeral hall (numeral_head (by omega) hnum)
      rw [hvalue, hnum, List.cons.injEq] at heq
      -- the first `k` digits are the same, so the others are
      have htail : tail.take k ++ ds = tail.take k ++ tail.drop k := by
        rw [List.take_append_drop, heq.2]
      exact .inl (List.append_cancel_left htail)
    · rintro (rfl | ⟨h, -⟩)
      · rw [List.take_append_drop, ← hnum, value_numeral]
      · omega

end EasyCore.Decimal
