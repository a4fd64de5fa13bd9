import Mathlib

/-! Reflected cyclic redundancy checks. The register shifts to the right, and the polynomial is
    added when a one falls out; a byte is added to the low end and shifted out bit by bit.

    A shift is linear, so the eight shifts of a byte are those of its own eight bits, which a table
    may hold, and those of the rest of the register, which only moves down. -/

namespace EasyCore.Crc

variable {w : ℕ} (poly : BitVec w)

/-- One shift. -/
def bitStep (x : BitVec w) : BitVec w :=
  if x.getLsbD 0 then (x >>> 1) ^^^ poly else x >>> 1

/-- One byte, bit by bit. -/
def byteStep (x : BitVec w) (b : BitVec 8) : BitVec w := (bitStep poly)^[8] (x ^^^ b.setWidth w)

/-- The check of a message. -/
def crc (init : BitVec w) (msg : List (BitVec 8)) : BitVec w := msg.foldl (byteStep poly) init

theorem bitStep_xor (x y : BitVec w) :
    bitStep poly (x ^^^ y) = bitStep poly x ^^^ bitStep poly y := by
  have hswap : ∀ a b : BitVec w, a ^^^ b ^^^ poly = a ^^^ poly ^^^ b := fun a b => by
    rw [BitVec.xor_assoc, BitVec.xor_comm b, BitVec.xor_assoc]
  have hcancel : ∀ a b : BitVec w, a ^^^ poly ^^^ (b ^^^ poly) = a ^^^ b := fun a b => by
    rw [BitVec.xor_assoc, BitVec.xor_comm b, ← BitVec.xor_assoc poly, BitVec.xor_self,
      BitVec.zero_xor]
  simp only [bitStep, BitVec.getLsbD_xor, BitVec.ushiftRight_xor_distrib]
  cases x.getLsbD 0 <;> cases y.getLsbD 0
  · simp
  · simp [BitVec.xor_assoc]
  · simp [hswap]
  · simp [hcancel]

theorem bitSteps_xor (n : ℕ) (x y : BitVec w) :
    (bitStep poly)^[n] (x ^^^ y) = (bitStep poly)^[n] x ^^^ (bitStep poly)^[n] y := by
  induction n generalizing x y with
  | zero => rfl
  | succ n ih => rw [Function.iterate_succ_apply, bitStep_xor, ih]; rfl

/-- Where the low bits are clear, the register only moves down. -/
theorem bitSteps_clear (x : BitVec w) {n : ℕ} (hx : ∀ i < n, x.getLsbD i = false) :
    (bitStep poly)^[n] x = x >>> n := by
  induction n with
  | zero => simp
  | succ n ih =>
    have hlow : (x >>> n).getLsbD 0 = false := by simpa using hx n (Nat.lt_succ_self n)
    rw [Function.iterate_succ_apply', ih fun i hi => hx i (Nat.lt_succ_of_lt hi), bitStep, hlow,
      BitVec.shiftRight_add]
    rfl

/-- A byte by a table: what falls out of the register with it, and the rest of the register. -/
theorem byteStep_eq (x : BitVec w) (b : BitVec 8) : byteStep poly x b =
    (x >>> 8) ^^^ (bitStep poly)^[8] (((x ^^^ b.setWidth w).setWidth 8).setWidth w) := by
  have hsplit : x ^^^ b.setWidth w =
      ((x >>> 8) <<< 8) ^^^ ((x ^^^ b.setWidth w).setWidth 8).setWidth w := by
    apply BitVec.eq_of_getLsbD_eq
    intro i hi
    simp only [BitVec.getLsbD_xor, BitVec.getLsbD_setWidth, BitVec.getLsbD_shiftLeft,
      BitVec.getLsbD_ushiftRight]
    rcases Nat.lt_or_ge i 8 with h8 | h8
    · simp [h8, hi]
    · have hb : b.getLsbD i = false := BitVec.getLsbD_of_ge b i h8
      have hback : 8 + (i - 8) = i := by omega
      simp [hi, hb, hback, Nat.not_lt.2 h8]
  have hclear : ∀ i < 8, ((x >>> 8) <<< 8).getLsbD i = false := by
    intro i hi
    simp [BitVec.getLsbD_shiftLeft, hi]
  have hdown : ((x >>> 8) <<< 8) >>> 8 = x >>> 8 := by
    apply BitVec.eq_of_getLsbD_eq
    intro i hi
    simp only [BitVec.getLsbD_ushiftRight, BitVec.getLsbD_shiftLeft]
    rcases Nat.lt_or_ge (8 + i) w with hw | hw
    · simp [hw]
    · simp [BitVec.getLsbD_of_ge x (8 + i) hw]
  rw [byteStep, hsplit, bitSteps_xor, bitSteps_clear poly _ hclear, hdown, ← hsplit]

end EasyCore.Crc
