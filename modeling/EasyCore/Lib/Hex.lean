import Mathlib

/-! Hexadecimal numerals as ASCII text. -/

namespace EasyCore.Hex

def isHexDigit (c : UInt8) : Bool :=
  48 ≤ c && c ≤ 57 || 65 ≤ c && c ≤ 70 || 97 ≤ c && c ≤ 102

/-- The value of a digit, small letters too. -/
def digitValue (c : UInt8) : ℕ :=
  if c ≤ 57 then c.toNat - 48 else if c ≤ 70 then c.toNat - 55 else c.toNat - 87

/-- The value of a digit sequence, the first digit the highest. -/
def value (ds : List UInt8) : ℕ := ds.foldl (fun n c => 16 * n + digitValue c) 0

def digitOf (d : ℕ) : UInt8 := UInt8.ofNat (if d < 10 then 48 + d else 55 + d)

/-- A byte as two digits. -/
def pair (x : UInt8) : List UInt8 := [digitOf (x.toNat / 16), digitOf (x.toNat % 16)]

theorem isHexDigit_digitOf {d : ℕ} (hd : d < 16) : isHexDigit (digitOf d) = true := by
  interval_cases d <;> rfl

theorem digitValue_digitOf {d : ℕ} (hd : d < 16) : digitValue (digitOf d) = d := by
  interval_cases d <;> rfl

theorem isHexDigit_of_mem_pair {x c : UInt8} (h : c ∈ pair x) : isHexDigit c = true := by
  have hx : x.toNat < 256 := x.toNat_lt
  simp only [pair, List.mem_cons, List.not_mem_nil, or_false] at h
  rcases h with rfl | rfl
  · exact isHexDigit_digitOf (by omega)
  · exact isHexDigit_digitOf (by omega)

theorem value_pair (x : UInt8) : value (pair x) = x.toNat := by
  have hx : x.toNat < 256 := x.toNat_lt
  simp only [value, pair, List.foldl_cons, List.foldl_nil]
  rw [digitValue_digitOf (by omega), digitValue_digitOf (by omega)]
  omega

/-- A digit is no NUL, no blank, no sign and no letter `x`. -/
theorem isHexDigit_iff (c : UInt8) : isHexDigit c = true ↔
    48 ≤ c.toNat ∧ c.toNat ≤ 57 ∨ 65 ≤ c.toNat ∧ c.toNat ≤ 70 ∨
      97 ≤ c.toNat ∧ c.toNat ≤ 102 := by
  simp [isHexDigit, UInt8.le_iff_toNat_le, or_assoc]

end EasyCore.Hex
