import EasyCore.Lib.Ring
import EasyCore.Lib.Runs

/-! The receive ring of the serial device (`components/drivers/serial/serial.c`). The interrupt handler
    puts a character in, also between two characters that a read takes out; one slot stays empty, and
    with no other left the oldest character gives way. -/

namespace EasyCore.Serial
open Function Runs

/-- `struct serial_ringbuffer`; the indices are 16 bits wide. -/
structure SerialRingbuffer where
  buffer : ℕ → UInt8
  putIndex : ℕ
  getIndex : ℕ

/-- `serial_ringbuffer_init` -/
def serialRingbufferInit : SerialRingbuffer := ⟨fun _ => 0, 0, 0⟩

/-- `(index + 1) & (RT_SERIAL_RB_BUFSZ - 1)`, as it is stored. -/
def nextIndex (bufsz i : ℕ) : ℕ := ((i + 1) &&& (bufsz - 1)) % 2 ^ 16

/-- `serial_ringbuffer_putc` -/
def serialRingbufferPutc (bufsz : ℕ) (rbuffer : SerialRingbuffer) (ch : UInt8) : SerialRingbuffer :=
  let rbuffer := { rbuffer with
    buffer := update rbuffer.buffer rbuffer.putIndex ch
    putIndex := nextIndex bufsz rbuffer.putIndex }
  if rbuffer.putIndex = rbuffer.getIndex then
    { rbuffer with getIndex := nextIndex bufsz rbuffer.getIndex }
  else rbuffer

/-- `serial_ringbuffer_getc` -/
def serialRingbufferGetc (bufsz : ℕ) (rbuffer : SerialRingbuffer) : SerialRingbuffer × ℤ :=
  if rbuffer.getIndex ≠ rbuffer.putIndex then
    ({ rbuffer with getIndex := nextIndex bufsz rbuffer.getIndex },
      (rbuffer.buffer rbuffer.getIndex).toNat)
  else (rbuffer, -1)

/-- `serial_ringbuffer_size` -/
def serialRingbufferSize (bufsz : ℕ) (rbuffer : SerialRingbuffer) : ℕ :=
  (rbuffer.putIndex + 2 ^ 32 - rbuffer.getIndex) % 2 ^ 32 &&& (bufsz - 1)

/-- `rt_serial_read` in interrupt mode: what it stores in the buffer. The characters `isr` are received
    while it runs, each list of them after one more character has been taken. -/
def rtSerialRead (bufsz : ℕ) : ℕ → List (List UInt8) → SerialRingbuffer →
    SerialRingbuffer × List UInt8
  | 0, _, rbuffer => (rbuffer, [])
  | size + 1, isr, rbuffer =>
    let r := serialRingbufferGetc bufsz rbuffer
    if r.2 = -1 then (r.1, [])
    else
      let t := rtSerialRead bufsz size isr.tail ((isr.headD []).foldl (serialRingbufferPutc bufsz) r.1)
      (t.1, UInt8.ofNat (r.2 % 256).toNat :: t.2)

/-! ### The characters received and not yet read -/

/-- A character is received: of those not read the last `cap` are kept. -/
def received (cap : ℕ) (q : List UInt8) (ch : UInt8) : List UInt8 :=
  (q ++ [ch]).drop (q.length + 1 - cap)

/-- A read takes the first character, as long as there is one and it is asked for more. -/
def readQueue (cap : ℕ) : ℕ → List (List UInt8) → List UInt8 → List UInt8 × List UInt8
  | 0, _, q => (q, [])
  | _ + 1, _, [] => ([], [])
  | n + 1, isr, ch :: q =>
    let t := readQueue cap n isr.tail ((isr.headD []).foldl (received cap) q)
    (t.1, ch :: t.2)

/-- Without an interrupt the first `n` characters are read, or all. -/
theorem readQueue_nil (cap : ℕ) : ∀ (n : ℕ) (q : List UInt8),
    readQueue cap n [] q = (q.drop n, q.take n)
  | 0, _ => rfl
  | _ + 1, [] => rfl
  | n + 1, ch :: q => by
    have ih := readQueue_nil cap n q
    simp only [readQueue, List.tail_nil, List.headD_nil, List.foldl_nil, ih, List.drop_succ_cons,
      List.take_succ_cons]

/-- The ring holds the characters `q`, with a slot to spare. -/
structure Holds (bufsz : ℕ) (rbuffer : SerialRingbuffer) (q : List UInt8) : Prop where
  ring : Ring.Ok bufsz rbuffer.putIndex rbuffer.getIndex q.length
  items : Ring.items rbuffer.buffer bufsz rbuffer.getIndex q.length = q
  lt : q.length < bufsz

variable {k : ℕ} {rbuffer : SerialRingbuffer} {q : List UInt8} {ch : UInt8}

theorem nextIndex_eq {i : ℕ} (hk : k ≤ 16) (hi : i < 2 ^ k) :
    nextIndex (2 ^ k) i = Ring.next (2 ^ k) i := by
  have hpow : 2 ^ k ≤ 2 ^ 16 := Nat.pow_le_pow_right (by decide) hk
  have hlt := Nat.mod_lt (i + 1) (Nat.two_pow_pos k)
  rw [nextIndex, Nat.and_two_pow_sub_one_eq_mod, Ring.next_eq hi, Nat.mod_eq_of_lt (by omega)]

theorem init_holds (k : ℕ) : Holds (2 ^ k) serialRingbufferInit [] :=
  ⟨Ring.Ok.empty _, rfl, Nat.two_pow_pos k⟩

namespace Holds

/-- The ring takes a character. -/
theorem putc (h : Holds (2 ^ k) rbuffer q) (hk : k ≤ 16) (ch : UInt8) :
    Holds (2 ^ k) (serialRingbufferPutc (2 ^ k) rbuffer ch) (received (2 ^ k - 1) q ch) := by
  have hpos := Nat.two_pow_pos k
  have hlt := h.lt
  have hpush := h.ring.push hlt
  have hitems : Ring.items (update rbuffer.buffer rbuffer.putIndex ch) (2 ^ k) rbuffer.getIndex
      (q.length + 1) = Ring.items rbuffer.buffer (2 ^ k) rbuffer.getIndex q.length ++ [ch] :=
    h.ring.items_push hlt ch
  rw [h.items] at hitems
  have hmeet := hpush.inn_eq_out_iff hpos
  unfold serialRingbufferPutc
  simp only [nextIndex_eq hk (h.ring.inn_lt hpos), nextIndex_eq hk (h.ring.out_lt hpos)]
  obtain hfull | hroom := eq_or_ne (q.length + 1) (2 ^ k)
  · -- the oldest character gives way
    rw [if_pos (hmeet.2 (Or.inr hfull))]
    have hone : received (2 ^ k - 1) q ch = (q ++ [ch]).drop 1 := by
      rw [received, hfull, Nat.sub_sub_self hpos]
    have hlen : (received (2 ^ k - 1) q ch).length = q.length := by
      rw [hone]
      simp
    have hpop := congrArg (List.drop 1) (hpush.items_pop.symm.trans hitems)
    rw [List.drop_succ_cons, List.drop_zero] at hpop
    refine ⟨hlen.symm ▸ hpush.pop, ?_, hlen.symm ▸ hlt⟩
    rw [hlen, hone]
    exact hpop
  · rw [if_neg (fun heq => (hmeet.1 heq).elim (Nat.succ_ne_zero _) hroom)]
    have hall : received (2 ^ k - 1) q ch = q ++ [ch] := by
      rw [received, Nat.sub_eq_zero_of_le (by omega), List.drop_zero]
    rw [hall]
    refine ⟨?_, ?_, ?_⟩
    · rw [List.length_append]
      exact hpush
    · rw [List.length_append]
      exact hitems
    · rw [List.length_append, List.length_singleton]
      omega

theorem foldl_putc (hk : k ≤ 16) : ∀ (chs : List UInt8) {rbuffer : SerialRingbuffer} {q : List UInt8},
    Holds (2 ^ k) rbuffer q → Holds (2 ^ k) (chs.foldl (serialRingbufferPutc (2 ^ k)) rbuffer)
      (chs.foldl (received (2 ^ k - 1)) q)
  | [], _, _, h => h
  | ch :: chs, _, _, h => foldl_putc hk chs (h.putc hk ch)

/-- The ring gives its first character, if it has one. -/
theorem getc (h : Holds (2 ^ k) rbuffer q) (hk : k ≤ 16) :
    (q = [] ∧ serialRingbufferGetc (2 ^ k) rbuffer = (rbuffer, -1)) ∨
      ∃ ch q', q = ch :: q' ∧ (serialRingbufferGetc (2 ^ k) rbuffer).2 = ch.toNat
        ∧ Holds (2 ^ k) (serialRingbufferGetc (2 ^ k) rbuffer).1 q' := by
  have hpos := Nat.two_pow_pos k
  have hmeet := h.ring.inn_eq_out_iff hpos
  have hlt := h.lt
  unfold serialRingbufferGetc
  cases q with
  | nil => exact Or.inl ⟨rfl, if_neg (not_not.2 (hmeet.2 (Or.inl rfl)).symm)⟩
  | cons ch q' =>
    right
    have hne : rbuffer.getIndex ≠ rbuffer.putIndex := fun heq =>
      (hmeet.1 heq.symm).elim (nomatch ·) hlt.ne
    have hpop := h.ring.items_pop.symm.trans h.items
    obtain ⟨hch, hq⟩ := List.cons.inj hpop
    rw [if_pos hne, nextIndex_eq hk (h.ring.out_lt hpos)]
    exact ⟨ch, q', rfl, by rw [hch], h.ring.pop, hq, by
      rw [List.length_cons] at hlt
      omega⟩

/-- `serial_ringbuffer_size` is the number of characters. -/
theorem size (h : Holds (2 ^ k) rbuffer q) (hk : k ≤ 16) :
    serialRingbufferSize (2 ^ k) rbuffer = q.length := by
  have hpos := Nat.two_pow_pos k
  have hout := h.ring.out_lt hpos
  have hlt := h.lt
  have hfree := h.ring.free
  have hdvd : 2 ^ 32 = 2 ^ k * 2 ^ (32 - k) := by rw [← Nat.pow_add, Nat.add_sub_of_le (by omega)]
  have hc : 0 < 2 ^ (32 - k) := Nat.two_pow_pos _
  rw [serialRingbufferSize, Nat.and_two_pow_sub_one_eq_mod,
    Nat.mod_mod_of_dvd _ (Nat.pow_dvd_pow 2 (by omega))]
  obtain hnowrap | hwrap := Nat.lt_or_ge (rbuffer.getIndex + q.length) (2 ^ k)
  · rw [Nat.mod_eq_of_lt hnowrap] at hfree
    rw [show rbuffer.putIndex + 2 ^ 32 - rbuffer.getIndex = q.length + 2 ^ k * 2 ^ (32 - k) by omega,
      Nat.add_mul_mod_self_left, Nat.mod_eq_of_lt hlt]
  · rw [Nat.mod_eq_sub_mod hwrap, Nat.mod_eq_of_lt (by omega)] at hfree
    have hdiff : rbuffer.putIndex + 2 ^ 32 - rbuffer.getIndex
        = q.length + 2 ^ k * (2 ^ (32 - k) - 1) := by
      rw [Nat.mul_sub, Nat.mul_one, ← hdvd]
      have := Nat.le_mul_of_pos_right (2 ^ k) hc
      omega
    rw [hdiff, Nat.add_mul_mod_self_left, Nat.mod_eq_of_lt hlt]

theorem read (hk : k ≤ 16) : ∀ (n : ℕ) (isr : List (List UInt8)) {rbuffer : SerialRingbuffer}
    {q : List UInt8}, Holds (2 ^ k) rbuffer q →
    (rtSerialRead (2 ^ k) n isr rbuffer).2 = (readQueue (2 ^ k - 1) n isr q).2
      ∧ Holds (2 ^ k) (rtSerialRead (2 ^ k) n isr rbuffer).1 (readQueue (2 ^ k - 1) n isr q).1
  | 0, _, _, _, h => ⟨rfl, h⟩
  | n + 1, isr, rbuffer, q, h => by
    obtain ⟨rfl, hgetc⟩ | ⟨ch, q', rfl, hch, hrest⟩ := h.getc hk
    · simp only [rtSerialRead, hgetc, readQueue, if_true]
      exact ⟨trivial, h⟩
    · have hne : ((ch.toNat : ℕ) : ℤ) ≠ -1 := by omega
      have hbyte : UInt8.ofNat (((ch.toNat : ℕ) : ℤ) % 256).toNat = ch := by
        have := ch.toNat_lt
        rw [Int.emod_eq_of_lt (by omega) (by omega), Int.toNat_natCast, UInt8.ofNat_toNat]
      obtain ⟨hbytes, hholds⟩ := read hk n isr.tail (foldl_putc hk (isr.headD []) hrest)
      simp only [rtSerialRead, hch, if_neg hne, readQueue, hbyte, hbytes]
      exact ⟨trivial, hholds⟩

end Holds

/-! ### Runs -/

inductive SerialAct
  | receive (ch : UInt8)
  | read (size : ℕ) (isr : List (List UInt8))

/-- What happens to the ring, and what a read stores. -/
def serialExec (bufsz : ℕ) (rbuffer : SerialRingbuffer) : SerialAct → SerialRingbuffer × List UInt8
  | .receive ch => (serialRingbufferPutc bufsz rbuffer ch, [])
  | .read size isr => rtSerialRead bufsz size isr rbuffer

def queueExec (cap : ℕ) (q : List UInt8) : SerialAct → List UInt8 × List UInt8
  | .receive ch => (received cap q ch, [])
  | .read size isr => readQueue cap size isr q

/-- The ring and the characters, side by side. -/
def serialStep (bufsz : ℕ) (p : SerialRingbuffer × List UInt8) (a : SerialAct) :
    SerialRingbuffer × List UInt8 :=
  ((serialExec bufsz p.1 a).1, (queueExec (bufsz - 1) p.2 a).1)

/-- A read gives the characters that it gives for the queue, the first ones if it is not interrupted;
    there are as many as `serial_ringbuffer_size` says, before and after. -/
structure Refines (bufsz : ℕ) (p : SerialRingbuffer × List UInt8) (a : SerialAct) : Prop where
  bytes : (serialExec bufsz p.1 a).2 = (queueExec (bufsz - 1) p.2 a).2
  first : ∀ n, a = .read n [] → (serialExec bufsz p.1 a).2 = p.2.take n
    ∧ (serialStep bufsz p a).2 = p.2.drop n
  size : serialRingbufferSize bufsz p.1 = p.2.length
  size' : serialRingbufferSize bufsz (serialStep bufsz p a).1 = (serialStep bufsz p a).2.length

theorem serialExec_holds (h : Holds (2 ^ k) rbuffer q) (hk : k ≤ 16) (a : SerialAct) :
    (serialExec (2 ^ k) rbuffer a).2 = (queueExec (2 ^ k - 1) q a).2
      ∧ Holds (2 ^ k) (serialExec (2 ^ k) rbuffer a).1 (queueExec (2 ^ k - 1) q a).1 := by
  cases a with
  | receive ch => exact ⟨rfl, h.putc hk ch⟩
  | read n isr => exact Holds.read hk n isr h

/-- CORRECT: with a size that the indices can count, the ring keeps the last characters, and a read takes
    the first, one after the other; without an interrupt it takes as many as it can. -/
theorem refines_of_receive (hk : k ≤ 16) (acts : List SerialAct) :
    Along (serialStep (2 ^ k)) (Refines (2 ^ k)) (serialRingbufferInit, []) acts := by
  refine Along.always (I := fun p => Holds (2 ^ k) p.1 p.2) (fun p a h => ?_) acts (init_holds k)
  obtain ⟨hbytes, hholds⟩ := serialExec_holds h hk a
  refine ⟨⟨hbytes, fun n ha => ?_, h.size hk, hholds.size hk⟩, hholds⟩
  subst ha
  have hnil := readQueue_nil (2 ^ k - 1) n p.2
  exact ⟨hbytes.trans (congrArg Prod.snd hnil), congrArg Prod.fst hnil⟩

/-- Four slots: the first of four characters is lost, and the others are read. -/
theorem refines_of_receive_four : Along (serialStep (2 ^ 2)) (Refines (2 ^ 2))
    (serialRingbufferInit, []) [.receive 1, .receive 0xff, .receive 3, .receive 4, .read 5 []] :=
  refines_of_receive (by decide) _

theorem length_received (cap : ℕ) (q : List UInt8) (ch : UInt8) :
    (received cap q ch).length = q.length + 1 - (q.length + 1 - cap) := by
  simp [received]

/-- `n` characters `0`. -/
def zeros (n : ℕ) : List SerialAct := List.replicate n (.receive 0)

/-- Twice as many slots as the indices can count: they are as they should be at first. -/
theorem zeros_received {b : ℕ} (hb : b = 2 ^ 17) : ∀ {n : ℕ}, n < 65536 →
    ∃ r q, (zeros n).foldl (serialStep b) (serialRingbufferInit, []) = (r, q)
      ∧ r.putIndex = n ∧ r.getIndex = 0 ∧ q.length = n
  | 0, _ => ⟨_, _, rfl, rfl, rfl, rfl⟩
  | n + 1, hn => by
    obtain ⟨r, q, hrun, hput, hget, hlen⟩ := zeros_received hb (n := n) (by omega)
    have hnext : nextIndex b n = n + 1 := by
      rw [hb, nextIndex, Nat.and_two_pow_sub_one_eq_mod]
      omega
    have hputc : serialRingbufferPutc b r 0
        = ⟨update r.buffer r.putIndex 0, nextIndex b r.putIndex, r.getIndex⟩ := by
      rw [serialRingbufferPutc, if_neg]
      rw [hput, hget, hnext]
      exact Nat.succ_ne_zero n
    refine ⟨⟨update r.buffer r.putIndex 0, nextIndex b r.putIndex, r.getIndex⟩,
      received (b - 1) q 0, ?_, (congrArg (nextIndex b) hput).trans hnext, hget, ?_⟩
    · rw [zeros, List.replicate_succ', List.foldl_append, ← zeros, hrun]
      exact Prod.ext hputc rfl
    · rw [length_received, hlen]
      omega

/-- The put index meets the other one when half of the slots are free. -/
theorem not_refines_zeros {b n : ℕ} (hb : b = 2 ^ 17) (hn : n = 65535) :
    ¬ Along (serialStep b) (Refines b) (serialRingbufferInit, []) (zeros (n + 1)) := by
  intro h
  obtain ⟨r, q, hrun, hput, hget, hlen⟩ := zeros_received hb (n := n) (by omega)
  rw [zeros, List.replicate_succ', along_append, ← zeros, hrun] at h
  obtain ⟨-, hlast, -⟩ := h
  have hnext : nextIndex b n = 0 := by
    rw [hb, nextIndex, Nat.and_two_pow_sub_one_eq_mod]
    omega
  have hputc : serialRingbufferPutc b r 0 = ⟨update r.buffer r.putIndex 0, 0, 1⟩ := by
    have hnext' : nextIndex b 0 = 1 := by
      rw [hb, nextIndex, Nat.and_two_pow_sub_one_eq_mod]
      norm_num
    rw [serialRingbufferPutc, if_pos]
    · rw [hput, hget, hnext, hnext']
    · rw [hput, hget, hnext]
  have hsize : serialRingbufferSize b (serialRingbufferPutc b r 0)
      = (received (b - 1) q 0).length := hlast.size'
  rw [hputc, length_received, hlen, hn, hb] at hsize
  norm_num [serialRingbufferSize] at hsize
  exact absurd hsize (by decide)

/-- With more slots than the indices can count, characters are lost before they have to; and a read that
    is interrupted does not give the first characters. -/
theorem not_refines_of_wide : ¬ Along (serialStep (2 ^ 17)) (Refines (2 ^ 17))
      (serialRingbufferInit, []) (zeros (65535 + 1))
    ∧ (serialExec 4 ([1, 2, 3].foldl (serialRingbufferPutc 4) serialRingbufferInit)
      (.read 3 [[4, 5]])).2 ≠ [1, 2, 3] :=
  ⟨not_refines_zeros rfl rfl, by decide +kernel⟩

end EasyCore.Serial
