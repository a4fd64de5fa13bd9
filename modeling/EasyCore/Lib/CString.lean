import Mathlib

/-! Strings of C, as the bytes in front of their NUL, and how they are compared. -/

namespace EasyCore.CStr

/-- A string, without its NUL. -/
structure CString where
  chars : List UInt8
  no_nul : 0 ∉ chars
  deriving DecidableEq

@[ext] theorem CString.ext {s t : CString} (h : s.chars = t.chars) : s = t := by
  cases s
  cases t
  cases h
  rfl

/-- The string without a character. -/
def CString.empty : CString := ⟨[], List.not_mem_nil⟩

/-- The first characters of a string. -/
def CString.take (n : ℕ) (s : CString) : CString := ⟨s.chars.take n, fun h => s.no_nul (List.mem_of_mem_take h)⟩

/-- `strcmp`; what follows a list is its NUL. -/
def strcmp : List UInt8 → List UInt8 → ℤ
  | [], t => -(t.headD 0).toNat
  | c :: s, t => if c ≠ t.headD 0 then (c.toNat : ℤ) - (t.headD 0).toNat else strcmp s t.tail

/-- `strncmp` -/
def strncmp : ℕ → List UInt8 → List UInt8 → ℤ
  | 0, _, _ => 0
  | n + 1, s, t =>
    if s.headD 0 ≠ t.headD 0 then ((s.headD 0).toNat : ℤ) - (t.headD 0).toNat
    else if s.headD 0 = 0 then 0
    else strncmp n s.tail t.tail

variable {s t : List UInt8}

theorem toNat_sub_ne_zero {a b : UInt8} (h : a ≠ b) : (a.toNat : ℤ) - b.toNat ≠ 0 := by
  intro hsub
  exact h (UInt8.toNat_inj.1 (by omega))

/-- Equal strings compare as 0, and no others. -/
theorem strcmp_eq_zero : ∀ {s t : List UInt8}, 0 ∉ s → 0 ∉ t → (strcmp s t = 0 ↔ s = t)
  | [], [], _, _ => iff_of_true rfl rfl
  | [], d :: t, _, ht => by
    have hd : d ≠ 0 := fun h => ht (h ▸ List.mem_cons_self)
    have hpos : d.toNat ≠ 0 := fun h => hd (UInt8.toNat_inj.1 h)
    refine iff_of_false ?_ (List.cons_ne_nil d t).symm
    show -((d.toNat : ℕ) : ℤ) ≠ 0
    omega
  | c :: s, [], hs, _ => by
    have hc : c ≠ 0 := fun h => hs (h ▸ List.mem_cons_self)
    refine iff_of_false ?_ (List.cons_ne_nil c s)
    rw [strcmp, List.headD_nil, if_pos hc]
    exact toNat_sub_ne_zero hc
  | c :: s, d :: t, hs, ht => by
    have ih := strcmp_eq_zero (List.not_mem_of_not_mem_cons hs) (List.not_mem_of_not_mem_cons ht)
    rw [strcmp, List.headD_cons, List.tail_cons]
    by_cases hcd : c = d
    · rw [if_neg (not_not.2 hcd), ih, hcd, List.cons_inj_right]
    · rw [if_pos hcd]
      exact iff_of_false (toNat_sub_ne_zero hcd) fun h => hcd (List.cons.inj h).1

/-- `strncmp` compares the first `n` characters. -/
theorem strncmp_eq_zero : ∀ (n : ℕ) {s t : List UInt8}, 0 ∉ s → 0 ∉ t →
    (strncmp n s t = 0 ↔ s.take n = t.take n)
  | 0, s, t, _, _ => by
    rw [List.take_zero, List.take_zero]
    exact iff_of_true rfl rfl
  | n + 1, [], [], _, _ => iff_of_true rfl rfl
  | n + 1, [], d :: t, _, ht => by
    have hd : 0 ≠ d := fun h => ht (h ▸ List.mem_cons_self)
    refine iff_of_false ?_ (by simp)
    rw [strncmp, List.headD_nil, List.headD_cons, if_pos hd]
    exact toNat_sub_ne_zero hd
  | n + 1, c :: s, [], hs, _ => by
    have hc : c ≠ 0 := fun h => hs (h ▸ List.mem_cons_self)
    refine iff_of_false ?_ (by simp)
    rw [strncmp, List.headD_nil, List.headD_cons, if_pos hc]
    exact toNat_sub_ne_zero hc
  | n + 1, c :: s, d :: t, hs, ht => by
    have hc : c ≠ 0 := fun h => hs (h ▸ List.mem_cons_self)
    have ih := strncmp_eq_zero n (List.not_mem_of_not_mem_cons hs) (List.not_mem_of_not_mem_cons ht)
    rw [strncmp, List.headD_cons, List.headD_cons, List.tail_cons, List.tail_cons, List.take_succ_cons,
      List.take_succ_cons]
    by_cases hcd : c = d
    · rw [if_neg (not_not.2 hcd), if_neg hc, ih, hcd, List.cons_inj_right]
    · rw [if_pos hcd]
      exact iff_of_false (toNat_sub_ne_zero hcd) fun h => hcd (List.cons.inj h).1

/-- Compared in the length of the second string: whether the first one starts with it. -/
theorem strncmp_length (hs : 0 ∉ s) (ht : 0 ∉ t) : strncmp t.length s t = 0 ↔ t <+: s := by
  rw [strncmp_eq_zero _ hs ht, List.take_length, List.prefix_iff_eq_take, eq_comm]

end EasyCore.CStr
