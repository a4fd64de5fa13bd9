import Mathlib

/-! The machine word of the kernel and the services every part of it uses (`rtdef.h`,
    `kservice.c`): `rt_size_t` is 32 bits wide and `RT_ALIGN_SIZE` is 4 (`rtconfig.h`). -/

namespace EasyCore.Kernel

/-- `rt_size_t` (`unsigned long`): the values of a size argument. -/
abbrev RtSize := Fin (2 ^ 32)

/-- The difference of two `rt_size_t`, modulo the word. -/
def sub32 (a b : ℕ) : ℕ := (a + 2 ^ 32 - b) % 2 ^ 32

/-- `RT_ALIGN(size, RT_ALIGN_SIZE)` on `rt_size_t`. -/
def rtAlign (size : ℕ) : ℕ := (size + 3) % 2 ^ 32 - (size + 3) % 2 ^ 32 % 4

/-- `RT_ALIGN_DOWN(size, RT_ALIGN_SIZE)`. -/
def rtAlignDown (size : ℕ) : ℕ := size - size % 4

theorem sub32_eq {a b : ℕ} (hb : b ≤ a) (ha : a < 2 ^ 32) : sub32 a b = a - b := by
  unfold sub32; omega

theorem rtAlign_mod (n : ℕ) : rtAlign n % 4 = 0 := by unfold rtAlign; omega

/-- Up to `2 ^ 32 - 4` the alignment rounds up. -/
theorem rtAlign_ge (hn : n ≤ 2 ^ 32 - 4) : n ≤ rtAlign n := by unfold rtAlign; omega

/-- Above it the alignment wraps around to nothing. -/
theorem rtAlign_wrap (hn : 2 ^ 32 - 4 < n) (hn' : n < 2 ^ 32) : rtAlign n = 0 := by
  unfold rtAlign; omega

theorem rtAlign_idem (n : ℕ) : rtAlign (rtAlign n) = rtAlign n := by unfold rtAlign; omega

/-- `rt_memcpy(dst, src, count)` on blocks that do not overlap. -/
def rtMemcpy (data : ℕ → UInt8) (dst src count : ℕ) : ℕ → UInt8 :=
  fun a => if dst ≤ a ∧ a < dst + count then data (src + (a - dst)) else data a

/-- `rt_memset(s, c, count)`. -/
def rtMemset (data : ℕ → UInt8) (s : ℕ) (c : UInt8) (count : ℕ) : ℕ → UInt8 :=
  fun a => if s ≤ a ∧ a < s + count then c else data a

end EasyCore.Kernel
