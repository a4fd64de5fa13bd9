import Mathlib

/-! Base64 (`easyio_core/BASE64/cbase64.c`): three bytes are regrouped into four characters of six
    bits, and back; a last group of one or two bytes is padded.

        bytes       aaaaaaaa bbbbbbbb cccccccc
        characters  aaaaaa aabbbb bbbbcc cccccc -/

namespace EasyCore.Base64

def np : UInt8 := 0xFF

def alphabet64 : List UInt8 :=
  "ABCDEFGHIJKLMNOPQRSTUVWXYZabcdefghijklmnopqrstuvwxyz0123456789+/".toList.map
    fun c => c.toNat.toUInt8

/-- '='. -/
def pad : UInt8 := 61

def table64vals : List UInt8 :=
  [62, np, np, np, 63, 52, 53, 54, 55, 56, 57, 58, 59, 60, 61, np, np, np, np, np,
   np, np,  0,  1,  2,  3,  4,  5,  6,  7,  8,  9, 10, 11, 12, 13, 14, 15, 16, 17,
   18, 19, 20, 21, 22, 23, 24, 25, np, np, np, np, np, np, 26, 27, 28, 29, 30, 31,
   32, 33, 34, 35, 36, 37, 38, 39, 40, 41, 42, 43, 44, 45, 46, 47, 48, 49, 50, 51]

def table64 (c : UInt8) : UInt8 :=
  if c < 43 ∨ 122 < c then np else table64vals.getD (c.toNat - 43) np

/-- `alphabet64[c]`. -/
def char64 (c : UInt8) : UInt8 := alphabet64.getD c.toNat 0

/-- The six bits of each character of a group; `b` and `c` are 0 where the input has ended. -/
def sextet₁ (a : UInt8) : UInt8 := (a >>> (2 : UInt8)) &&& 0x3f
def sextet₂ (a b : UInt8) : UInt8 :=
  ((a <<< (4 : UInt8)) &&& 0x3f) ||| ((b >>> (4 : UInt8)) &&& 0x0f)
def sextet₃ (b c : UInt8) : UInt8 :=
  ((b <<< (2 : UInt8)) &&& 0x3c) ||| ((c >>> (6 : UInt8)) &&& 0x03)
def sextet₄ (c : UInt8) : UInt8 := c &&& 0x3f

/-- The loop of `encode_base64`. -/
def encodeLoop : List UInt8 → List UInt8
  | [] => []
  | [a] => [char64 (sextet₁ a), char64 (sextet₂ a 0), pad, pad]
  | [a, b] => [char64 (sextet₁ a), char64 (sextet₂ a b), char64 (sextet₃ b 0), pad]
  | a :: b :: c :: input =>
    char64 (sextet₁ a) :: char64 (sextet₂ a b) :: char64 (sextet₃ b c) :: char64 (sextet₄ c) ::
      encodeLoop input

/-- `encode_base64`: what it leaves in `output`. -/
def encodeBase64 (input : List UInt8) : List UInt8 := encodeLoop input ++ [0]

/-- The bytes of a group from the values of its characters. -/
def byte₁ (c d : UInt8) : UInt8 := (c <<< (2 : UInt8)) ||| ((d >>> (4 : UInt8)) &&& 0x3)
def byte₂ (d c : UInt8) : UInt8 :=
  ((d <<< (4 : UInt8)) &&& 0xf0) ||| ((c >>> (2 : UInt8)) &&& 0xf)
def byte₃ (c d : UInt8) : UInt8 := ((c <<< (6 : UInt8)) &&& 0xc0) ||| d

/-- The loop of `decode_base64`, over the characters of the string. The second character of a group
    is read without a test; at the end of the string it is the NUL. -/
def decodeLoop : List UInt8 → List UInt8
  | [] => []
  | [x] => [byte₁ (table64 x) (table64 0)]
  | [x, y] => [byte₁ (table64 x) (table64 y)]
  | [x, y, z] =>
    byte₁ (table64 x) (table64 y) :: if z = pad then [] else [byte₂ (table64 y) (table64 z)]
  | x :: y :: z :: w :: input =>
    byte₁ (table64 x) (table64 y) ::
      if z = pad then []
      else byte₂ (table64 y) (table64 z) ::
        if w = pad then [] else byte₃ (table64 z) (table64 w) :: decodeLoop input

/-- `decode_base64`: what it leaves in `decoded`, and `*outlen`. The string ends at its NUL. -/
def decodeBase64 (input : List UInt8) : List UInt8 × ℕ :=
  let decoded := decodeLoop (input.takeWhile (· ≠ 0))
  (decoded ++ [0], decoded.length)

/-! ### Characters -/

set_option maxRecDepth 4000 in
theorem char64_table : ∀ n < 64,
    table64 (char64 (UInt8.ofNat n)) = UInt8.ofNat n ∧ char64 (UInt8.ofNat n) ≠ pad ∧
      char64 (UInt8.ofNat n) ≠ 0 := by decide

/-- The character of a six-bit value is looked up again, and is no padding and no NUL. -/
theorem char64_spec {c : UInt8} (hc : c < 64) :
    table64 (char64 c) = c ∧ char64 c ≠ pad ∧ char64 c ≠ 0 := by
  have h := char64_table c.toNat (UInt8.lt_iff_toNat_lt.1 hc)
  simpa using h

theorem and_lt (x : UInt8) {m : UInt8} (hm : m.toNat < 2 ^ 6) : (x &&& m).toNat < 2 ^ 6 := by
  rw [UInt8.toNat_and]
  exact lt_of_le_of_lt Nat.and_le_right hm

theorem or_lt {x y : UInt8} (hx : x.toNat < 2 ^ 6) (hy : y.toNat < 2 ^ 6) : x ||| y < 64 := by
  rw [UInt8.lt_iff_toNat_lt, UInt8.toNat_or]
  exact Nat.or_lt_two_pow hx hy

theorem sextet₁_lt (a : UInt8) : sextet₁ a < 64 := UInt8.lt_iff_toNat_lt.2 (and_lt _ (by decide))

theorem sextet₂_lt (a b : UInt8) : sextet₂ a b < 64 :=
  or_lt (and_lt _ (by decide)) (and_lt _ (by decide))

theorem sextet₃_lt (b c : UInt8) : sextet₃ b c < 64 :=
  or_lt (and_lt _ (by decide)) (and_lt _ (by decide))

theorem sextet₄_lt (c : UInt8) : sextet₄ c < 64 := UInt8.lt_iff_toNat_lt.2 (and_lt _ (by decide))

/-! ### Bits -/

theorem byte₁_sextets (a b : UInt8) : byte₁ (sextet₁ a) (sextet₂ a b) = a := by
  apply UInt8.toBitVec_inj.1
  ext i hi
  interval_cases i <;> simp [byte₁, sextet₁, sextet₂]

theorem byte₂_sextets (a b c : UInt8) : byte₂ (sextet₂ a b) (sextet₃ b c) = b := by
  apply UInt8.toBitVec_inj.1
  ext i hi
  interval_cases i <;> simp [byte₂, sextet₂, sextet₃]

theorem byte₃_sextets (b c : UInt8) : byte₃ (sextet₃ b c) (sextet₄ c) = c := by
  apply UInt8.toBitVec_inj.1
  ext i hi
  interval_cases i <;> simp [byte₃, sextet₃, sextet₄]

/-! ### Round trip -/

/-- An encoding has no NUL in it, so the string is all of it. -/
theorem encodeLoop_no_nul : ∀ (input : List UInt8), ∀ x ∈ encodeLoop input, x ≠ 0
  | [], x, h => by simp [encodeLoop] at h
  | [a], x, h => by
    simp only [encodeLoop, List.mem_cons, List.not_mem_nil, or_false] at h
    rcases h with rfl | rfl | rfl | rfl
    · exact (char64_spec (sextet₁_lt a)).2.2
    · exact (char64_spec (sextet₂_lt a 0)).2.2
    · decide
    · decide
  | [a, b], x, h => by
    simp only [encodeLoop, List.mem_cons, List.not_mem_nil, or_false] at h
    rcases h with rfl | rfl | rfl | rfl
    · exact (char64_spec (sextet₁_lt a)).2.2
    · exact (char64_spec (sextet₂_lt a b)).2.2
    · exact (char64_spec (sextet₃_lt b 0)).2.2
    · decide
  | a :: b :: c :: input, x, h => by
    simp only [encodeLoop, List.mem_cons] at h
    rcases h with rfl | rfl | rfl | rfl | h
    · exact (char64_spec (sextet₁_lt a)).2.2
    · exact (char64_spec (sextet₂_lt a b)).2.2
    · exact (char64_spec (sextet₃_lt b c)).2.2
    · exact (char64_spec (sextet₄_lt c)).2.2
    · exact encodeLoop_no_nul input x h

/-- The loops undo each other, group by group. -/
theorem decodeLoop_encodeLoop : ∀ input : List UInt8, decodeLoop (encodeLoop input) = input
  | [] => rfl
  | [a] => by
    simp only [encodeLoop, decodeLoop, if_true, char64_spec (sextet₁_lt a),
      char64_spec (sextet₂_lt a 0), byte₁_sextets]
  | [a, b] => by
    simp only [encodeLoop, decodeLoop, if_true, if_false, char64_spec (sextet₁_lt a),
      char64_spec (sextet₂_lt a b), char64_spec (sextet₃_lt b 0), byte₁_sextets, byte₂_sextets]
  | a :: b :: c :: input => by
    simp only [encodeLoop, decodeLoop, if_false, char64_spec (sextet₁_lt a),
      char64_spec (sextet₂_lt a b), char64_spec (sextet₃_lt b c), char64_spec (sextet₄_lt c),
      byte₁_sextets, byte₂_sextets, byte₃_sextets, decodeLoop_encodeLoop input]

/-- CORRECT: decoding an encoding gives the bytes back, with their number. -/
theorem decode_encode (b : List UInt8) :
    decodeBase64 (encodeBase64 b) = (b ++ [0], b.length) := by
  have hstr : (encodeBase64 b).takeWhile (· ≠ 0) = encodeLoop b := by
    have hall : ∀ x ∈ encodeLoop b, decide (x ≠ 0) = true := fun x hx =>
      decide_eq_true (encodeLoop_no_nul b x hx)
    rw [encodeBase64, List.takeWhile_append_of_pos hall]
    simp
  simp only [decodeBase64, hstr, decodeLoop_encodeLoop]

end EasyCore.Base64
