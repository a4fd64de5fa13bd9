import EasyCore.Kernel.Word
import EasyCore.Lib.Copy

/-! `rt_memset`, `rt_memcpy` and `rt_memmove` (`src/kservice.c`).

        s               count >= 16              count >= 4      count--
        ├── 4 words ── 4 words ── ⋯ ── 4 words ──┼─ word ─ ⋯ ─┼─ byte ─ ⋯ ─┤

    Addresses wrap around at the end of the address space. A word in memory is little endian. -/

namespace EasyCore.MemCopy
open Function Copy

/-- A `char *`. -/
abbrev Addr := UInt32

abbrev Mem := Addr → UInt8

/-- A `count` below 2^31; an `int`, such as the `len` of `rt_memcpy`, can hold it. -/
abbrev Count := Fin (2 ^ 31)

/-- `(rt_int32_t)X & (LBLOCKSIZE - 1)`. -/
def unaligned (x : Addr) : UInt32 := x &&& 3

/-- `sizeof(rt_int32_t)`. -/
def lblocksize : ℕ := 4

/-- An `rt_uint32_t *`, which is aligned. -/
structure WordPtr where
  addr : Addr
  aligned : unaligned addr = 0

theorem unaligned_add (x : Addr) : unaligned (x + 4) = unaligned x := by
  have hmod : ∀ y : Addr, (unaligned y).toNat = y.toNat % 4 := fun y => by
    rw [unaligned, UInt32.toNat_and]
    exact Nat.and_two_pow_sub_one_eq_mod y.toNat 2
  refine UInt32.toNat_inj.1 ?_
  rw [hmod, hmod, UInt32.toNat_add]
  have : (4 : UInt32).toNat = 4 := rfl
  omega

/-- `p + 1`. -/
def WordPtr.next (p : WordPtr) : WordPtr := ⟨p.addr + 4, (unaligned_add p.addr).trans p.aligned⟩

/-- `*p`. -/
def Mem.word (mem : Mem) (p : WordPtr) : UInt32 :=
  (mem p.addr).toUInt32 ||| (mem (p.addr + 1)).toUInt32 <<< 8 |||
    (mem (p.addr + 2)).toUInt32 <<< 16 ||| (mem (p.addr + 3)).toUInt32 <<< 24

/-- `*p = v`. -/
def Mem.setWord (mem : Mem) (p : WordPtr) (v : UInt32) : Mem :=
  update (update (update (update mem p.addr v.toUInt8) (p.addr + 1) (v >>> 8).toUInt8)
    (p.addr + 2) (v >>> 16).toUInt8) (p.addr + 3) (v >>> 24).toUInt8

/-! ### The byte loops -/

/-- `while (count--) *m++ = d;`. -/
def setBytes (d : UInt8) : ℕ → Mem → Addr → Mem
  | 0, mem, _ => mem
  | n + 1, mem, m => setBytes d n (update mem m d) (m + 1)

/-- `while (len--) *dst++ = *src++;`. -/
def copyBytes : ℕ → Mem → Addr → Addr → Mem
  | 0, mem, _, _ => mem
  | n + 1, mem, dst, src => copyBytes n (update mem dst (mem src)) (dst + 1) (src + 1)

/-- `while (n--) *(--tmp) = *(--s);`. -/
def copyBytesDown : ℕ → Mem → Addr → Addr → Mem
  | 0, mem, _, _ => mem
  | n + 1, mem, tmp, s => copyBytesDown n (update mem (tmp - 1) (mem (s - 1))) (tmp - 1) (s - 1)

/-- With `RT_TINY_SIZE` there is nothing but the byte loop. -/
def rtMemsetTiny (mem : Mem) (s : Addr) (c : UInt32) (count : Count) : Mem × Addr :=
  (setBytes c.toUInt8 count mem s, s)

def rtMemcpyTiny (mem : Mem) (dst src : Addr) (count : Count) : Mem × Addr :=
  (copyBytes count mem dst src, dst)

/-! ### The functions -/

/-- `while (count >= LBLOCKSIZE * 4)`, with four words a round, and `while (count >= LBLOCKSIZE)`. -/
def wordLoops {σ : Type*} (next : σ → σ) (s : σ) (count : ℕ) : σ × ℕ :=
  let r := rounds (lblocksize * 4) (fun x => next (next (next (next x)))) s count
  rounds lblocksize next r.1 r.2

/-- `*aligned_addr++ = buffer`. -/
def setNext (buffer : UInt32) (x : Mem × WordPtr) : Mem × WordPtr :=
  (x.1.setWord x.2 buffer, x.2.next)

/-- `rt_memset`. -/
def rtMemset (mem : Mem) (s : Addr) (c : UInt32) (count : Count) : Mem × Addr :=
  let d := c &&& 0xff
  if h : ¬ count.val < lblocksize ∧ unaligned s = 0 then
    let buffer := d <<< 8 ||| d
    let buffer := buffer ||| buffer <<< 16
    let r := wordLoops (setNext buffer) (mem, ⟨s, h.2⟩) count
    (setBytes d.toUInt8 r.2 r.1.1 r.1.2.addr, s)
  else (setBytes d.toUInt8 count mem s, s)

/-- `*aligned_dst++ = *aligned_src++`. -/
def copyNext (x : Mem × WordPtr × WordPtr) : Mem × WordPtr × WordPtr :=
  (x.1.setWord x.2.1 (x.1.word x.2.2), x.2.1.next, x.2.2.next)

theorem aligned_of_or {x y : Addr} (h : unaligned x ||| unaligned y = 0) :
    unaligned x = 0 ∧ unaligned y = 0 := by
  rwa [UInt32.or_eq_zero_iff] at h

/-- `rt_memcpy`. -/
def rtMemcpy (mem : Mem) (dst src : Addr) (count : Count) : Mem × Addr :=
  if h : ¬ count.val < lblocksize * 4 ∧ unaligned src ||| unaligned dst = 0 then
    let r := wordLoops copyNext
      (mem, ⟨dst, (aligned_of_or h.2).2⟩, ⟨src, (aligned_of_or h.2).1⟩) count
    (copyBytes r.2 r.1.1 r.1.2.1.addr r.1.2.2.addr, dst)
  else (copyBytes count mem dst src, dst)

/-- `rt_memmove`. -/
def rtMemmove (mem : Mem) (dest src : Addr) (n : Count) : Mem × Addr :=
  if src < dest ∧ dest < src + UInt32.ofNat n then
    (copyBytesDown n mem (dest + UInt32.ofNat n) (src + UInt32.ofNat n), dest)
  else (copyBytes n mem dest src, dest)

/-! ### What they should do -/

/-- The address `i` bytes on. -/
def off (p : Addr) (i : ℕ) : Addr := p + UInt32.ofNat i

/-- A copy through a temporary buffer: every byte is read before one is stored. -/
def throughTemp (mem : Mem) (dst src : Addr) (n : ℕ) : Mem := put mem (off dst) (fun i => mem (off src i)) n

/-- No byte of a range is in the other. -/
def Apart (p q : Addr) (n : ℕ) : Prop := ∀ i < n, ∀ j < n, off p i ≠ off q j

/-- A range does not run over the end of the address space. -/
def InSpace (p : Addr) (n : ℕ) : Prop := p.toNat + n ≤ 2 ^ 32

/-! ### Addresses and words -/

theorem off_zero (p : Addr) : off p 0 = p := UInt32.add_zero p

theorem off_add (p : Addr) (i j : ℕ) : off p (i + j) = off (off p i) j := by
  rw [off, off, off, UInt32.ofNat_add, UInt32.add_assoc]

theorem off_one (p : Addr) : off p 1 = p + 1 := rfl

/-- Where a range does not run over the end of the address space, offsets do not wrap. -/
theorem toNat_off {p : Addr} {i : ℕ} (h : p.toNat + i < 2 ^ 32) : (off p i).toNat = p.toNat + i := by
  rw [off, UInt32.toNat_add, UInt32.toNat_ofNat']
  omega

theorem off_eq (p : Addr) (i : ℕ) : off p i = UInt32.ofNat (p.toNat + i) := by
  rw [off, UInt32.ofNat_add, UInt32.ofNat_toNat]

theorem off_ne {p q : Addr} {n i j : ℕ} (hp : InSpace p n) (hq : InSpace q n) (hi : i < n) (hj : j < n)
    (h : p.toNat + i ≠ q.toNat + j) : off p i ≠ off q j := by
  unfold InSpace at hp hq
  intro heq
  have heq' : (off p i).toNat = (off q j).toNat := congrArg UInt32.toNat heq
  rw [toNat_off (by omega), toNat_off (by omega)] at heq'
  exact h heq'

/-- The bytes of a word are what it was put together from. -/
theorem bytes_of_word (b₀ b₁ b₂ b₃ : UInt8) (w : UInt32)
    (hw : w = b₀.toUInt32 ||| b₁.toUInt32 <<< 8 ||| b₂.toUInt32 <<< 16 ||| b₃.toUInt32 <<< 24) :
    w.toUInt8 = b₀ ∧ (w >>> 8).toUInt8 = b₁ ∧ (w >>> 16).toUInt8 = b₂ ∧ (w >>> 24).toUInt8 = b₃ := by
  subst hw
  refine ⟨?_, ?_, ?_, ?_⟩ <;> apply UInt8.eq_of_toBitVec_eq <;> ext i hi <;> simp <;> grind

theorem low_byte (c : UInt32) : c &&& 0xff = c.toUInt8.toUInt32 := by
  refine UInt32.toNat_inj.1 ?_
  rw [UInt32.toNat_and, UInt8.toNat_toUInt32, UInt32.toNat_toUInt8]
  exact Nat.and_two_pow_sub_one_eq_mod c.toNat 8

/-- `buffer` has the byte four times. -/
theorem buffer_eq (d : UInt8) :
    (d.toUInt32 <<< 8 ||| d.toUInt32) ||| (d.toUInt32 <<< 8 ||| d.toUInt32) <<< 16 =
      d.toUInt32 ||| d.toUInt32 <<< 8 ||| d.toUInt32 <<< 16 ||| d.toUInt32 <<< 24 := by
  apply UInt32.eq_of_toBitVec_eq
  ext i hi
  simp
  grind

/-! ### The loops -/

theorem setBytes_eq (d : UInt8) : ∀ (n : ℕ) (mem : Mem) (m : Addr),
    setBytes d n mem m = put mem (off m) (fun _ => d) n
  | 0, _, _ => rfl
  | n + 1, mem, m => by
      rw [setBytes, setBytes_eq d n, put_succ, off_zero]
      simp only [Nat.add_comm _ 1, off_add m 1, off_one]

theorem copyBytes_eq : ∀ (n : ℕ) (mem : Mem) (dst src : Addr),
    copyBytes n mem dst src = up mem (off dst) (off src) n
  | 0, _, _, _ => rfl
  | n + 1, mem, dst, src => by
      rw [copyBytes, copyBytes_eq n, up_succ, off_zero, off_zero]
      simp only [Nat.add_comm _ 1, off_add _ 1, off_one]

theorem copyBytesDown_eq (dst src : Addr) : ∀ (n : ℕ) (mem : Mem),
    copyBytesDown n mem (off dst n) (off src n) = down (off dst) (off src) n mem
  | 0, _ => rfl
  | n + 1, mem => by
      have hpred : ∀ p : Addr, off p (n + 1) - 1 = off p n := fun p => by
        rw [off_add, off_one, UInt32.add_sub_cancel]
      rw [copyBytesDown, hpred, hpred, copyBytesDown_eq dst src n, down]

/-- A word is stored as its four bytes. -/
theorem setWord_eq (mem : Mem) (p : WordPtr) (w : UInt32) (v : ℕ → UInt8)
    (hw : w = (v 0).toUInt32 ||| (v 1).toUInt32 <<< 8 ||| (v 2).toUInt32 <<< 16 |||
      (v 3).toUInt32 <<< 24) : mem.setWord p w = put mem (off p.addr) v 4 := by
  obtain ⟨h₀, h₁, h₂, h₃⟩ := bytes_of_word _ _ _ _ w hw
  rw [Mem.setWord, h₀, h₁, h₂, h₃]
  simp only [put, off_zero]
  rfl

theorem next_addr (p : WordPtr) : p.next.addr = off p.addr 4 := rfl

/-- `rt_memset` after `k` bytes. -/
def Filled (mem : Mem) (s : Addr) (d : UInt8) (k : ℕ) (x : Mem × WordPtr) : Prop :=
  x.1 = put mem (off s) (fun _ => d) k ∧ x.2.addr = off s k

theorem setNext_filled {mem : Mem} {s : Addr} {d : UInt8} {k : ℕ} {x : Mem × WordPtr}
    {buffer : UInt32}
    (hbuffer : buffer = d.toUInt32 ||| d.toUInt32 <<< 8 ||| d.toUInt32 <<< 16 ||| d.toUInt32 <<< 24)
    (h : Filled mem s d k x) : Filled mem s d (k + 4) (setNext buffer x) := by
  obtain ⟨hmem, haddr⟩ := h
  constructor
  · show x.1.setWord x.2 buffer = _
    rw [setWord_eq x.1 x.2 buffer (fun _ => d) hbuffer, put_add, hmem, haddr]
    simp only [off_add]
  · show off x.2.addr 4 = _
    rw [haddr, off_add]

/-- `rt_memcpy` after `k` bytes. -/
def Copied (mem : Mem) (dst src : Addr) (k : ℕ) (x : Mem × WordPtr × WordPtr) : Prop :=
  x.1 = up mem (off dst) (off src) k ∧ x.2.1.addr = off dst k ∧ x.2.2.addr = off src k

/-- A word is read before it is stored; that is as good where the ranges do not overlap. -/
theorem copyNext_copied {mem : Mem} {dst src : Addr} {n k : ℕ} {x : Mem × WordPtr × WordPtr}
    (hapart : Apart dst src n) (hk : k + 4 ≤ n)
    (h : Copied mem dst src k x) : Copied mem dst src (k + 4) (copyNext x) := by
  obtain ⟨hmem, hdst, hsrc⟩ := h
  refine ⟨?_, ?_, ?_⟩
  · show x.1.setWord x.2.1 (x.1.word x.2.2) = _
    have hword : x.1.setWord x.2.1 (x.1.word x.2.2) =
        put x.1 (off x.2.1.addr) (fun i => x.1 (off x.2.2.addr i)) 4 :=
      setWord_eq x.1 x.2.1 _ _ (by simp only [off_zero]; rfl)
    rw [hword, ← up_eq_put, up_add, hmem, hdst, hsrc]
    · simp only [off_add]
    · rw [hdst, hsrc]
      intro i j hij hj
      rw [← off_add, ← off_add]
      exact hapart _ (by omega) _ (by omega)
  · show off x.2.1.addr 4 = _
    rw [hdst, off_add]
  · show off x.2.2.addr 4 = _
    rw [hsrc, off_add]

/-- Both loops take words; what they leave is for the byte loop. -/
theorem wordLoops_spec {σ : Type*} {next : σ → σ} {P : ℕ → σ → Prop} {n : ℕ} {s : σ}
    (hnext : ∀ k x, k + 4 ≤ n → P k x → P (k + 4) (next x)) (hs : P 0 s) :
    ∃ m, P m (wordLoops next s n).1 ∧ m + (wordLoops next s n).2 = n := by
  have hfour : ∀ k x, k + lblocksize * 4 ≤ n → P k x →
      P (k + lblocksize * 4) (next (next (next (next x)))) := by
    intro k x hk hx
    have hsize : lblocksize * 4 = 16 := rfl
    have hx₁ := hnext _ _ (by omega) hx
    have hx₂ := hnext _ _ (by omega) hx₁
    have hx₃ := hnext _ _ (by omega) hx₂
    exact hnext _ _ (by omega) hx₃
  obtain ⟨m, hm, hleft⟩ := rounds_spec hfour hs (Nat.zero_add n)
  exact rounds_spec hnext hm hleft

/-- What is left of a range, after a part of it. -/
theorem put_rest (mem : Mem) (s : Addr) (d : UInt8) {m r n : ℕ} (h : m + r = n) :
    put (put mem (off s) (fun _ => d) m) (off (off s m)) (fun _ => d) r =
      put mem (off s) (fun _ => d) n := by
  subst h
  rw [put_add]
  simp only [off_add]

theorem up_rest (mem : Mem) (dst src : Addr) {m r n : ℕ} (h : m + r = n) :
    up (up mem (off dst) (off src) m) (off (off dst m)) (off (off src m)) r =
      up mem (off dst) (off src) n := by
  subst h
  rw [up_add]
  simp only [off_add]

/-! ### The results -/

theorem rtMemset_eq (mem : Mem) (s : Addr) (c : UInt32) (count : Count) :
    rtMemset mem s c count = (put mem (off s) (fun _ => c.toUInt8) count, s) := by
  simp only [rtMemset, low_byte, UInt8.toUInt8_toUInt32]
  split_ifs with h
  · have hstart : Filled mem s c.toUInt8 0 (mem, ⟨s, h.2⟩) := ⟨rfl, (off_zero s).symm⟩
    obtain ⟨m, ⟨hmem, haddr⟩, hleft⟩ := wordLoops_spec
      (fun k x _ => setNext_filled (buffer_eq c.toUInt8)) hstart
    rw [setBytes_eq, hmem, haddr, put_rest mem s c.toUInt8 hleft]
  · rw [setBytes_eq]

theorem rtMemcpy_eq (mem : Mem) (dst src : Addr) (count : Count)
    (hapart : Apart dst src count) :
    rtMemcpy mem dst src count = (up mem (off dst) (off src) count, dst) := by
  unfold rtMemcpy
  split_ifs with h
  · have hstart : Copied mem dst src 0
        (mem, ⟨dst, (aligned_of_or h.2).2⟩, ⟨src, (aligned_of_or h.2).1⟩) :=
      ⟨rfl, (off_zero dst).symm, (off_zero src).symm⟩
    obtain ⟨m, ⟨hmem, hdst, hsrc⟩, hleft⟩ := wordLoops_spec
      (fun k x hk => copyNext_copied hapart hk) hstart
    simp only [copyBytes_eq]
    rw [hmem, hdst, hsrc, up_rest mem dst src hleft]
  · rw [copyBytes_eq]

/-- The test of `rt_memmove` says whether the destination starts in the source, behind its start. -/
theorem overlaps_iff {dest src : Addr} {n : ℕ} (hd : InSpace dest n) (hs : InSpace src n) :
    (src < dest ∧ dest < src + UInt32.ofNat n) ↔
      src.toNat < dest.toNat ∧ dest.toNat < src.toNat + n := by
  have hlt := dest.toNat_lt
  unfold InSpace at hd hs
  rw [UInt32.lt_iff_toNat_lt, UInt32.lt_iff_toNat_lt, UInt32.toNat_add, UInt32.toNat_ofNat']
  omega

theorem rtMemmove_eq (mem : Mem) (dest src : Addr) (n : Count) (hd : InSpace dest n)
    (hs : InSpace src n) : rtMemmove mem dest src n = (throughTemp mem dest src n, dest) := by
  unfold rtMemmove throughTemp
  split_ifs with h <;> rw [overlaps_iff hd hs] at h
  · -- a byte is stored behind those that are still to be read
    have hcopy := copyBytesDown_eq dest src n mem
    rw [down_eq_put
      (fun i j hij hj => off_ne hd hs hj (hij.trans hj) (by omega))
      (fun i j hij hj => off_ne hd hd hj (hij.trans hj) (by omega))] at hcopy
    exact Prod.ext hcopy rfl
  · rw [copyBytes_eq, up_eq_put fun i j hij hj => off_ne hd hs (hij.trans hj) hj (by omega)]

/-- CORRECT: `rt_memset`, and on ranges that are apart `rt_memcpy`, leave what the byte loop leaves, and
    `rt_memmove` leaves what a copy through a temporary buffer leaves, for every overlap of two ranges
    of the address space; nothing outside of the destination has changed. -/
theorem mem_copy_correct (mem : Mem) (dst src : Addr) (c : UInt32) (count : Count) :
    rtMemset mem dst c count = rtMemsetTiny mem dst c count ∧
    (Apart dst src count → rtMemcpy mem dst src count = rtMemcpyTiny mem dst src count) ∧
    (InSpace dst count → InSpace src count →
      rtMemmove mem dst src count = (throughTemp mem dst src count, dst)) ∧
    ∀ a, (∀ i < count.val, a ≠ off dst i) →
      (rtMemset mem dst c count).1 a = mem a ∧
      (Apart dst src count → (rtMemcpy mem dst src count).1 a = mem a) ∧
      (InSpace dst count → InSpace src count → (rtMemmove mem dst src count).1 a = mem a) := by
  have hcopy : Apart dst src count →
      up mem (off dst) (off src) count = throughTemp mem dst src count := fun h =>
    up_eq_put fun i j hij hj => h i (hij.trans hj) j hj
  refine ⟨?_, fun h => ?_, rtMemmove_eq mem dst src count, fun a ha => ⟨?_, fun h => ?_, fun hd hs => ?_⟩⟩
  · rw [rtMemset_eq, rtMemsetTiny, setBytes_eq]
  · rw [rtMemcpy_eq mem dst src count h, rtMemcpyTiny, copyBytes_eq]
  · rw [rtMemset_eq]
    exact put_of_ne ha
  · rw [rtMemcpy_eq mem dst src count h, hcopy h]
    exact put_of_ne ha
  · rw [rtMemmove_eq mem dst src count hd hs]
    exact put_of_ne ha

/-- Ranges of 20 bytes that are apart, and a move by two bytes. -/
theorem mem_copy_correct_twenty : Apart 32 0 20 ∧ InSpace 2 20 ∧ InSpace 0 20 ∧
    rtMemset (fun a => a.toUInt8) 32 0x141 20 = rtMemsetTiny (fun a => a.toUInt8) 32 0x141 20 ∧
    rtMemcpy (fun a => a.toUInt8) 32 0 20 = rtMemcpyTiny (fun a => a.toUInt8) 32 0 20 ∧
    rtMemmove (fun a => a.toUInt8) 2 0 20 = (throughTemp (fun a => a.toUInt8) 2 0 20, 2) := by
  have hapart : Apart 32 0 20 := by unfold Apart; decide +kernel
  have hdst : InSpace 2 20 := by unfold InSpace; decide
  have hsrc : InSpace 0 20 := by unfold InSpace; decide
  exact ⟨hapart, hdst, hsrc, (mem_copy_correct _ 32 0 0x141 20).1,
    (mem_copy_correct _ 32 0 0 20).2.1 hapart, (mem_copy_correct _ 2 0 0 20).2.2.1 hdst hsrc⟩

/-! ### Blocks of the allocators -/

/-- What is stored in a range, by the numbers of the addresses. -/
theorem put_off (mem : Mem) {p : Addr} {n : ℕ} (v : ℕ → UInt8) (h : InSpace p n) (a : Addr) :
    put mem (off p) v n a =
      if p.toNat ≤ a.toNat ∧ a.toNat < p.toNat + n then v (a.toNat - p.toNat) else mem a := by
  split_ifs with hin
  · have ha : off p (a.toNat - p.toNat) = a := by
      rw [off_eq, Nat.add_sub_cancel' hin.1, UInt32.ofNat_toNat]
    have hlt : a.toNat - p.toNat < n := by omega
    conv_lhs => rw [← ha]
    exact put_at (fun i j hi hj hij => off_ne h h hi hj (by omega)) hlt
  · refine put_of_ne fun i hi heq => hin ?_
    unfold InSpace at h
    rw [heq, toNat_off (by omega)]
    omega

/-- The memory, by the numbers of the addresses. -/
def Mem.data (mem : Mem) (a : ℕ) : UInt8 := mem (UInt32.ofNat a)

/-- CORRECT: what the allocators take `rt_memset` for. -/
theorem rtMemset_data (mem : Mem) (s : Addr) (c : UInt32) (count : Count) (h : InSpace s count)
    (a : Addr) : (rtMemset mem s c count).1 a =
      Kernel.rtMemset mem.data s.toNat c.toUInt8 count a.toNat := by
  rw [rtMemset_eq]
  show put mem (off s) _ count a = _
  rw [put_off mem _ h, Kernel.rtMemset, Mem.data, UInt32.ofNat_toNat]

/-- CORRECT: what the allocators take `rt_memcpy` for. -/
theorem rtMemcpy_data (mem : Mem) (dst src : Addr) (count : Count) (h : InSpace dst count)
    (hapart : Apart dst src count) (a : Addr) : (rtMemcpy mem dst src count).1 a =
      Kernel.rtMemcpy mem.data dst.toNat src.toNat count a.toNat := by
  rw [rtMemcpy_eq mem dst src count hapart,
    up_eq_put fun i j hij hj => hapart i (hij.trans hj) j hj]
  show put mem (off dst) _ count a = _
  rw [put_off mem _ h]
  simp only [Kernel.rtMemcpy, Mem.data, off_eq, UInt32.ofNat_toNat]

end EasyCore.MemCopy
