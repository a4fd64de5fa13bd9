import EasyCore.Lib.Blocks

/-! MD5 (`easyio_core/MD5/md5sum.c`). The digest of a message does not depend on the pieces in which
    the message is appended: it is the one of the padded message, taken in blocks of 64 bytes. -/

namespace EasyCore.Md5
open Blocks

/-- The registers `abcd`. -/
structure Abcd where
  a : UInt32
  b : UInt32
  c : UInt32
  d : UInt32

/-- `md5_state_t`. `count` is the length in bits, the low word first. -/
structure Md5State where
  count0 : UInt32
  count1 : UInt32
  abcd : Abcd
  buf : List UInt8

/-! ### One block -/

/-- The little-endian word at `k` words into `data`. -/
def wordAt (data : List UInt8) (k : ℕ) : UInt32 :=
  let byte i := (data.getD (4 * k + i) 0).toUInt32
  byte 0 ||| byte 1 <<< 8 ||| byte 2 <<< 16 ||| byte 3 <<< 24

/-- The bytes of a word, the lowest first. -/
def wordBytes (w : UInt32) : List UInt8 :=
  [w.toUInt8, (w >>> 8).toUInt8, (w >>> 16).toUInt8, (w >>> 24).toUInt8]

def rotateLeft (x n : UInt32) : UInt32 := x <<< n ||| x >>> (32 - n)

def fF (x y z : UInt32) : UInt32 := x &&& y ||| ~~~x &&& z
def fG (x y z : UInt32) : UInt32 := x &&& z ||| y &&& ~~~z
def fH (x y z : UInt32) : UInt32 := x ^^^ y ^^^ z
def fI (x y z : UInt32) : UInt32 := y ^^^ (x ||| ~~~z)

/-- `SET`. The source names the registers in turn (a b c d, d a b c, and so on); here they move. -/
def set (f : UInt32 → UInt32 → UInt32 → UInt32) (data : List UInt8) (r : Abcd)
    (op : ℕ × UInt32 × UInt32) : Abcd :=
  let t := r.a + f r.b r.c r.d + wordAt data op.1 + op.2.2
  ⟨r.d, rotateLeft t op.2.1 + r.b, r.b, r.c⟩

def round1 : List (ℕ × UInt32 × UInt32) :=
  [(0, 7, 0xd76aa478), (1, 12, 0xe8c7b756), (2, 17, 0x242070db), (3, 22, 0xc1bdceee),
   (4, 7, 0xf57c0faf), (5, 12, 0x4787c62a), (6, 17, 0xa8304613), (7, 22, 0xfd469501),
   (8, 7, 0x698098d8), (9, 12, 0x8b44f7af), (10, 17, 0xffff5bb1), (11, 22, 0x895cd7be),
   (12, 7, 0x6b901122), (13, 12, 0xfd987193), (14, 17, 0xa679438e), (15, 22, 0x49b40821)]

def round2 : List (ℕ × UInt32 × UInt32) :=
  [(1, 5, 0xf61e2562), (6, 9, 0xc040b340), (11, 14, 0x265e5a51), (0, 20, 0xe9b6c7aa),
   (5, 5, 0xd62f105d), (10, 9, 0x02441453), (15, 14, 0xd8a1e681), (4, 20, 0xe7d3fbc8),
   (9, 5, 0x21e1cde6), (14, 9, 0xc33707d6), (3, 14, 0xf4d50d87), (8, 20, 0x455a14ed),
   (13, 5, 0xa9e3e905), (2, 9, 0xfcefa3f8), (7, 14, 0x676f02d9), (12, 20, 0x8d2a4c8a)]

def round3 : List (ℕ × UInt32 × UInt32) :=
  [(5, 4, 0xfffa3942), (8, 11, 0x8771f681), (11, 16, 0x6d9d6122), (14, 23, 0xfde5380c),
   (1, 4, 0xa4beea44), (4, 11, 0x4bdecfa9), (7, 16, 0xf6bb4b60), (10, 23, 0xbebfbc70),
   (13, 4, 0x289b7ec6), (0, 11, 0xeaa127fa), (3, 16, 0xd4ef3085), (6, 23, 0x04881d05),
   (9, 4, 0xd9d4d039), (12, 11, 0xe6db99e5), (15, 16, 0x1fa27cf8), (2, 23, 0xc4ac5665)]

def round4 : List (ℕ × UInt32 × UInt32) :=
  [(0, 6, 0xf4292244), (7, 10, 0x432aff97), (14, 15, 0xab9423a7), (5, 21, 0xfc93a039),
   (12, 6, 0x655b59c3), (3, 10, 0x8f0ccc92), (10, 15, 0xffeff47d), (1, 21, 0x85845dd1),
   (8, 6, 0x6fa87e4f), (15, 10, 0xfe2ce6e0), (6, 15, 0xa3014314), (13, 21, 0x4e0811a1),
   (4, 6, 0xf7537e82), (11, 10, 0xbd3af235), (2, 15, 0x2ad7d2bb), (9, 21, 0xeb86d391)]

def md5Process (r : Abcd) (data : List UInt8) : Abcd :=
  let s := round1.foldl (set fF data) r
  let s := round2.foldl (set fG data) s
  let s := round3.foldl (set fH data) s
  let s := round4.foldl (set fI data) s
  ⟨r.a + s.a, r.b + s.b, r.c + s.c, r.d + s.d⟩

/-! ### Messages -/

def abcd₀ : Abcd := ⟨0x67452301, 0xefcdab89, 0x98badcfe, 0x10325476⟩

/-- `md5_init` leaves the block as it is. -/
def md5Init (s : Md5State) : Md5State := { s with count0 := 0, count1 := 0, abcd := abcd₀ }

def memcpy (buf : List UInt8) (offset : ℕ) (p : List UInt8) : List UInt8 :=
  buf.take offset ++ p ++ buf.drop (offset + p.length)

/-- The loop over full blocks, and the copy of the rest. -/
def fullBlocks (s : Md5State) (p : List UInt8) : Md5State :=
  if 64 ≤ p.length then fullBlocks { s with abcd := md5Process s.abcd (p.take 64) } (p.drop 64)
  else { s with buf := memcpy s.buf 0 p }
termination_by p.length
decreasing_by simp only [List.length_drop]; omega

/-- Where the next byte goes in the block. -/
def Md5State.offset (s : Md5State) : ℕ := (s.count0 >>> 3 &&& 63).toNat

/-- The length after `nbytes` more bytes. -/
def Md5State.addCount (s : Md5State) (nbytes : ℕ) : Md5State :=
  let nbits := UInt32.ofNat (nbytes <<< 3)
  let count0 := s.count0 + nbits
  let count1 := s.count1 + UInt32.ofNat (nbytes >>> 29)
  { s with count0 := count0, count1 := if count0 < nbits then count1 + 1 else count1 }

def md5Append (s : Md5State) (data : List UInt8) : Md5State :=
  let offset := s.offset
  if data.length = 0 then s
  else
    let s := s.addCount data.length
    if offset ≠ 0 then
      let copy := if 64 < offset + data.length then 64 - offset else data.length
      let s := { s with buf := memcpy s.buf offset (data.take copy) }
      if offset + copy < 64 then s
      else fullBlocks { s with abcd := md5Process s.abcd s.buf } (data.drop copy)
    else fullBlocks s data

def pad : List UInt8 := 0x80 :: List.replicate 63 0

def Abcd.digest (r : Abcd) : List UInt8 :=
  wordBytes r.a ++ wordBytes r.b ++ wordBytes r.c ++ wordBytes r.d

/-- `md5_finish`: the digest. -/
def md5Finish (s : Md5State) : List UInt8 :=
  let data := wordBytes s.count0 ++ wordBytes s.count1
  let length := s.count0 >>> 3
  let s := md5Append s (pad.take ((55 - length &&& 63) + 1).toNat)
  (md5Append s data).abcd.digest

/-! ### The digest of a message -/

/-- What follows a message of `length` bytes: a bit, zeros up to the last two words of a block, and
    the length in bits. -/
def padding (length : ℕ) : List UInt8 :=
  0x80 :: List.replicate ((119 - length % 64) % 64) 0 ++
    (wordBytes (UInt32.ofNat (8 * length)) ++ wordBytes (UInt32.ofNat (8 * length / 2 ^ 32)))

def md5 (message : List UInt8) : List UInt8 :=
  (absorb 64 md5Process abcd₀ (message ++ padding message.length)).1.digest

/-- The state after a message: its length, its full blocks, and the rest of it in `buf`. -/
structure Holds (s : Md5State) (message : List UInt8) : Prop where
  count0 : s.count0 = UInt32.ofNat (8 * message.length)
  count1 : s.count1 = UInt32.ofNat (8 * message.length / 2 ^ 32)
  abcd : s.abcd = (absorb 64 md5Process abcd₀ message).1
  rest : s.buf.take (message.length % 64) = (absorb 64 md5Process abcd₀ message).2
  size : s.buf.length = 64

theorem md5Init_holds {s : Md5State} (hsize : s.buf.length = 64) : Holds (md5Init s) [] := by
  refine ⟨rfl, rfl, ?_, ?_, hsize⟩ <;> rw [absorb_short _ (by simp)]
  · rfl
  · rfl

theorem memcpy_length {buf p : List UInt8} {offset : ℕ} (h : offset + p.length ≤ buf.length) :
    (memcpy buf offset p).length = buf.length := by
  simp only [memcpy, List.length_append, List.length_take, List.length_drop]; omega

theorem memcpy_take {buf p : List UInt8} {offset : ℕ} (h : offset + p.length ≤ buf.length) :
    (memcpy buf offset p).take (offset + p.length) = buf.take offset ++ p := by
  have hlen : (buf.take offset ++ p).length = offset + p.length := by
    simp only [List.length_append, List.length_take]; omega
  rw [memcpy, ← hlen, List.take_left']
  rfl

/-! ### The length -/

theorem Holds.offset {s : Md5State} {message : List UInt8} (h : Holds s message) :
    s.offset = message.length % 64 := by
  have hand : ∀ x : ℕ, x &&& 63 = x % 64 := fun x => Nat.and_two_pow_sub_one_eq_mod x 6
  rw [Md5State.offset, h.count0]
  simp only [UInt32.toNat_and, UInt32.toNat_shiftRight, UInt32.toNat_ofNat', UInt32.reduceToNat,
    hand, Nat.shiftRight_eq_div_pow, Nat.reduceMod, Nat.reducePow]
  omega

@[simp] theorem addCount_buf (s : Md5State) (n : ℕ) : (s.addCount n).buf = s.buf := rfl
@[simp] theorem addCount_abcd (s : Md5State) (n : ℕ) : (s.addCount n).abcd = s.abcd := rfl

theorem addCount_low (s : Md5State) {len : ℕ} (h : s.count0 = UInt32.ofNat (8 * len)) (n : ℕ) :
    (s.addCount n).count0 = UInt32.ofNat (8 * (len + n)) := by
  apply UInt32.toNat_inj.1
  simp only [Md5State.addCount, h, UInt32.toNat_add, UInt32.toNat_ofNat', Nat.shiftLeft_eq]
  omega

theorem addCount_high (s : Md5State) {len : ℕ} (h : s.count0 = UInt32.ofNat (8 * len))
    (h1 : s.count1 = UInt32.ofNat (8 * len / 2 ^ 32)) (n : ℕ) :
    (s.addCount n).count1 = UInt32.ofNat (8 * (len + n) / 2 ^ 32) := by
  apply UInt32.toNat_inj.1
  simp only [Md5State.addCount, h, h1]
  split
  all_goals
    rename_i hcarry
    simp only [UInt32.lt_iff_toNat_lt, UInt32.toNat_add, UInt32.toNat_ofNat', Nat.shiftLeft_eq,
      Nat.shiftRight_eq_div_pow, UInt32.reduceToNat] at hcarry ⊢
    omega

/-! ### Pieces -/

/-- The loop eats the full blocks, and leaves the rest in `buf`. -/
theorem fullBlocks_spec (s : Md5State) (p : List UInt8) (hsize : s.buf.length = 64) :
    (fullBlocks s p).count0 = s.count0 ∧ (fullBlocks s p).count1 = s.count1 ∧
      (fullBlocks s p).abcd = (absorb 64 md5Process s.abcd p).1 ∧
      (fullBlocks s p).buf.take (p.length % 64) = (absorb 64 md5Process s.abcd p).2 ∧
      (fullBlocks s p).buf.length = 64 := by
  induction s, p using fullBlocks.induct with
  | case1 s p h ih =>
    rw [fullBlocks, if_pos h, absorb_full (by omega) _ h]
    have hmod : (p.drop 64).length % 64 = p.length % 64 := by
      rw [List.length_drop, ← Nat.mod_eq_sub_mod h]
    rw [← hmod]
    exact ih hsize
  | case2 s p h =>
    have hlt : p.length < 64 := by omega
    rw [fullBlocks, if_neg h, absorb_short _ hlt, Nat.mod_eq_of_lt hlt]
    have htake : (memcpy s.buf 0 p).take (0 + p.length) = s.buf.take 0 ++ p :=
      memcpy_take (by omega)
    rw [Nat.zero_add, List.take_zero, List.nil_append] at htake
    exact ⟨rfl, rfl, rfl, htake, by rw [memcpy_length (by omega)]; exact hsize⟩

theorem Holds.append {s : Md5State} {message : List UInt8} (h : Holds s message)
    (p : List UInt8) : Holds (md5Append s p) (message ++ p) := by
  obtain rfl | hp := eq_or_ne p []
  · rwa [List.append_nil]
  have hlen : p.length ≠ 0 := by simpa using hp
  have hsize := h.size
  -- What the digest needs of the state: the bytes waiting in `buf`, then the piece.
  have habs : absorb 64 md5Process abcd₀ (message ++ p) =
      absorb 64 md5Process s.abcd (s.buf.take (message.length % 64) ++ p) := by
    rw [absorb_append (by omega), ← h.abcd, ← h.rest]
  have hwait : (s.buf.take (message.length % 64)).length = message.length % 64 := by
    rw [List.length_take]; omega
  -- Whatever the loop starts from, it leaves the state of the whole message.
  have hloop : ∀ (buf : List UInt8) (r : Abcd) (q : List UInt8), buf.length = 64 →
      absorb 64 md5Process abcd₀ (message ++ p) = absorb 64 md5Process r q →
      (message ++ p).length % 64 = q.length % 64 →
      Holds (fullBlocks { s.addCount p.length with abcd := r, buf := buf } q) (message ++ p) := by
    intro buf r q hbuf hq hmod
    obtain ⟨hc0, hc1, ha, hr, hl⟩ :=
      fullBlocks_spec { s.addCount p.length with abcd := r, buf := buf } q hbuf
    refine ⟨?_, ?_, ?_, ?_, hl⟩
    · rw [hc0, List.length_append, addCount_low s h.count0]
    · rw [hc1, List.length_append, addCount_high s h.count0 h.count1]
    · rw [ha, hq]
    · rw [hmod, hr, hq]
  rw [md5Append, if_neg hlen, h.offset]
  split
  · rename_i hoff
    by_cases hfull : message.length % 64 + p.length < 64
    · -- The block is not full yet.
      have hcopy : ¬64 < message.length % 64 + p.length := by omega
      have hbuf : message.length % 64 + p.length ≤ s.buf.length := by omega
      have hmod : (message ++ p).length % 64 = message.length % 64 + p.length := by
        rw [List.length_append]; omega
      have hshort : (s.buf.take (message.length % 64) ++ p).length < 64 := by
        rw [List.length_append, hwait]; exact hfull
      simp only [hcopy, if_false, hfull, if_true, List.take_length]
      refine ⟨?_, ?_, ?_, ?_, ?_⟩
      · rw [List.length_append]; exact addCount_low s h.count0 _
      · rw [List.length_append]; exact addCount_high s h.count0 h.count1 _
      · rw [habs, absorb_short _ hshort]; rfl
      · rw [habs, absorb_short _ hshort, hmod]
        exact memcpy_take hbuf
      · exact (memcpy_length hbuf).trans hsize
    · -- The block is full: it is eaten, and the loop goes on behind it.
      have hcopy : (if 64 < message.length % 64 + p.length then 64 - message.length % 64
          else p.length) = 64 - message.length % 64 := by
        split <;> omega
      have hlen' : (p.take (64 - message.length % 64)).length = 64 - message.length % 64 := by
        rw [List.length_take]; omega
      have hend : ¬message.length % 64 + (64 - message.length % 64) < 64 := by omega
      have hbuf : message.length % 64 + (p.take (64 - message.length % 64)).length ≤
          s.buf.length := by
        omega
      have hblock : memcpy s.buf (message.length % 64) (p.take (64 - message.length % 64)) =
          s.buf.take (message.length % 64) ++ p.take (64 - message.length % 64) := by
        rw [← memcpy_take hbuf]
        exact (List.take_of_length_le (by rw [memcpy_length hbuf]; omega)).symm
      simp only [hcopy, hend, if_false, addCount_buf, addCount_abcd, hblock]
      refine hloop _ _ _ ?_ ?_ ?_
      · rw [← hblock]; exact (memcpy_length hbuf).trans hsize
      · have hsplit : s.buf.take (message.length % 64) ++ p =
            s.buf.take (message.length % 64) ++ p.take (64 - message.length % 64) ++
              p.drop (64 - message.length % 64) := by
          rw [List.append_assoc, List.take_append_drop]
        have hfilled : (s.buf.take (message.length % 64) ++
            p.take (64 - message.length % 64)).length = 64 := by
          rw [List.length_append, hwait, hlen']; omega
        rw [habs, hsplit, absorb_append (by omega), absorb_block (by omega) _ hfilled,
          List.nil_append]
      · rw [List.length_append, List.length_drop]; omega
  · rename_i hoff
    have hoff : message.length % 64 = 0 := by omega
    refine hloop s.buf s.abcd p hsize ?_ ?_
    · rw [habs, hoff, List.take_zero, List.nil_append]
    · rw [List.length_append]; omega

/-- Any pieces, one after the other. -/
theorem Holds.appends {s : Md5State} : ∀ (pieces : List (List UInt8)) {message : List UInt8},
    Holds s message → Holds (pieces.foldl md5Append s) (message ++ pieces.flatten) := by
  intro pieces
  induction pieces generalizing s with
  | nil =>
    intro message h
    rwa [List.flatten_nil, List.append_nil]
  | cons p pieces ih =>
    intro message h
    rw [List.foldl_cons, List.flatten_cons, ← List.append_assoc]
    exact ih (h.append p)

/-- `md5_finish` gives the digest of the message. -/
theorem Holds.finish {s : Md5State} {message : List UInt8} (h : Holds s message) :
    md5Finish s = md5 message := by
  have hand : ∀ x : ℕ, x &&& 63 = x % 64 := fun x => Nat.and_two_pow_sub_one_eq_mod x 6
  have hpad : (55 - s.count0 >>> (3 : UInt32) &&& 63).toNat = (119 - message.length % 64) % 64 := by
    rw [h.count0]
    simp only [UInt32.toNat_and, UInt32.toNat_sub, UInt32.toNat_shiftRight, UInt32.toNat_ofNat',
      UInt32.reduceToNat, hand, Nat.shiftRight_eq_div_pow, Nat.reduceMod, Nat.reducePow]
    omega
  have hbytes : pad.take ((55 - s.count0 >>> (3 : UInt32) &&& 63) + 1).toNat =
      0x80 :: List.replicate ((119 - message.length % 64) % 64) 0 := by
    have hlt : (119 - message.length % 64) % 64 < 64 := Nat.mod_lt _ (by omega)
    have hsucc : ((55 - s.count0 >>> (3 : UInt32) &&& 63) + 1).toNat =
        (119 - message.length % 64) % 64 + 1 := by
      rw [UInt32.toNat_add, hpad]
      simp only [UInt32.reduceToNat]; omega
    rw [hsucc, pad, List.take_succ_cons, List.take_replicate]
    congr 2; omega
  have hdone := (h.append (0x80 :: List.replicate ((119 - message.length % 64) % 64) 0)).append
    (wordBytes s.count0 ++ wordBytes s.count1)
  simp only [md5Finish]
  rw [hbytes, hdone.abcd, h.count0, h.count1, List.append_assoc]
  rfl

/-- The digest of a message that comes in pieces. -/
theorem md5Finish_appends {s : Md5State} (hsize : s.buf.length = 64)
    (pieces : List (List UInt8)) :
    md5Finish (pieces.foldl md5Append (md5Init s)) = md5 pieces.flatten := by
  have h := (md5Init_holds hsize).appends pieces
  rw [List.nil_append] at h
  exact h.finish

end EasyCore.Md5
