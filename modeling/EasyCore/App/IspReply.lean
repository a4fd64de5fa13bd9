import EasyCore.Lib.Stores
import EasyCore.Drivers.Serial

/-! What the target answers to a command of the ISP (`applications/isp_http_tcp.c`). A read waits
    for the semaphore that the receive interrupt releases, and takes what the receive ring has.
    Interrupts come while it waits and between two characters that it takes.

        waiting            reading
        isr … isr  ──▶  c₁ isr…  c₂ isr…  c₃ … -/

namespace EasyCore.IspReply
open Serial Stores Runs

/-- `RT_SERIAL_RB_BUFSZ`. -/
def rbBufsz : ℕ := 2 ^ 11

/-- `ISP_BUFFER_LEN`, the size of the buffer that the callers pass. -/
def ispBufferLen : ℕ := 32

/-- `isp_serial_fd` and `isp_serial_rx_sem`; the ring is one that has been used as it should be. -/
structure Port where
  ring : SerialRingbuffer
  sem : ℕ
  held : ∃ q, Holds rbBufsz ring q

/-- `rt_hw_serial_isr` with `usart_rx_ind`. -/
def Port.isr (port : Port) (chs : List UInt8) : Port where
  ring := chs.foldl (serialRingbufferPutc rbBufsz) port.ring
  sem := (port.sem + 1) % 2 ^ 16
  held := port.held.elim fun _ h => ⟨_, h.foldl_putc (by decide) chs⟩

/-- The interrupts in the course of one read, with the characters that each of them puts in. -/
structure Round where
  waiting : List (List UInt8)
  reading : List (List (List UInt8))

/-- `rt_sem_take`, with the interrupts until it returns. -/
def semTake (port : Port) (waiting : List (List UInt8)) : Port × Bool :=
  let port := waiting.foldl Port.isr port
  if port.sem = 0 then (port, false) else ({ port with sem := port.sem - 1 }, true)

/-- `rt_device_read`. -/
def deviceRead (port : Port) (len : ℕ) (reading : List (List (List UInt8))) : Port × List UInt8 :=
  let r := rtSerialRead rbBufsz len (reading.map List.flatten) port.ring
  (⟨r.1, (port.sem + ((reading.take r.2.length).map List.length).sum) % 2 ^ 16,
    port.held.elim fun _ h => ⟨_, (h.read (by decide) _ _).2⟩⟩, r.2)

/-- `read_isp_serial_data`: the answer of the semaphore is not looked at. -/
def readIspSerialData (port : Port) (len : ℕ) (r : Round) : Port × List UInt8 :=
  deviceRead (semTake port r.waiting).1 len r.reading

/-- `clearbuffer`, if it comes to an end in these rounds. -/
def clearbuffer : List Round → Port → Option Port
  | [], _ => none
  | r :: rs, port =>
    let t := readIspSerialData port 50 r
    if t.2.length = 0 then some t.1 else clearbuffer rs t.1

/-- The interrupts in the course of `write_isp_buffer_ack`. -/
structure AckTiming where
  clear : List Round
  writing : List (List UInt8)
  reply : Round

/-- `write_isp_buffer_ack`: what is sent, the stores into `buffer`, and what it returns. -/
def writeIspBufferAck (port : Port) (buffer : ℤ → UInt8) (len : ℕ) (t : AckTiming) :
    Option (Port × List UInt8 × List (ℤ × UInt8) × UInt8) :=
  (clearbuffer t.clear port).map fun port =>
    let port := { port with sem := 0 }
    let port := t.writing.foldl Port.isr port
    let r := readIspSerialData port 100 t.reply
    let stores := place 0 [0] ++ place 0 r.2
    (r.1, contents buffer len, stores, after buffer stores 0)

/-- `write_isp_buffer_ack_v2` between two rounds of its loop. The store into `buffer[0]` comes
    before it; the callers pass one array for `buffer` and for `rbuffer`. -/
structure AckV2 where
  port : Port
  size : ℤ
  stores : List (ℤ × UInt8)
  returned : Option ℤ

def ackV2Start (port : Port) (writing : List (List UInt8)) : AckV2 :=
  ⟨writing.foldl Port.isr port, 0, [], none⟩

/-- A round of the loop; `rbuf_index` is always 0. -/
def ackV2Round (rlen : ℕ) (s : AckV2) (r : Round) : AckV2 :=
  match s.returned with
  | some _ => s
  | none =>
    let rbufIndex := 0
    let t := semTake s.port r.waiting
    if t.2 then
      let u := deviceRead t.1 (rlen - rbufIndex) r.reading
      ⟨u.1, Int.bmod (s.size + u.2.length) (2 ^ 32), s.stores ++ place s.size u.2, none⟩
    else { s with port := t.1, returned := some s.size }

/-- After a round all that has been stored is in the buffer, and what has been returned is the
    number of bytes. -/
def InBuffer (s : AckV2) (r : Round) : Prop :=
  Inside ispBufferLen (ackV2Round ispBufferLen s r).stores ∧
    ∀ v, (ackV2Round ispBufferLen s r).returned = some v →
      v = (ackV2Round ispBufferLen s r).stores.length

/-- The replies stay in the buffer, whatever the target sends and when. -/
structure RepliesFit (port : Port) (buffer : ℤ → UInt8) (len : ℕ) (t : AckTiming)
    (writing : List (List UInt8)) (rounds : List Round) : Prop where
  ack : ∀ a, writeIspBufferAck port buffer len t = some a → Inside ispBufferLen a.2.2.1
  v2 : Along (ackV2Round ispBufferLen) InBuffer (ackV2Start port writing) rounds

/-- With some bytes waiting, no more than `room` are there to be read: for some `k` no more than `k`
    have come by the time that `k` have been taken. -/
def RunsOut (waiting room : ℕ) (reading : List (List (List UInt8))) : Prop :=
  ∃ k ≤ room, waiting + ((reading.map List.flatten).take k).flatten.length ≤ k

/-- All that comes after `clearbuffer` fits the buffer. -/
def AckFits (port : Port) (t : AckTiming) : Prop :=
  (clearbuffer t.clear port).isSome →
    RunsOut (t.writing ++ t.reply.waiting).flatten.length ispBufferLen t.reply.reading

/-- What there is to be read in a round fits behind the bytes of the rounds before. -/
def RoundFits (s : AckV2) (r : Round) : Prop :=
  s.returned = none → (semTake s.port r.waiting).2 = true → s.size = 0 ∨
    RunsOut (serialRingbufferSize rbBufsz (semTake s.port r.waiting).1.ring)
      (ispBufferLen - s.size.toNat) r.reading

/-! ### One read -/

theorem foldl_received_length (cap : ℕ) : ∀ (chs q : List UInt8), q.length ≤ cap →
    (chs.foldl (received cap) q).length = min cap (q.length + chs.length)
  | [], q, h => by
    simp only [List.foldl_nil, List.length_nil]
    omega
  | ch :: chs, q, h => by
    have hone := length_received cap q ch
    have ih := foldl_received_length cap chs (received cap q ch) (by omega)
    simp only [List.foldl_cons, List.length_cons]
    omega

theorem flatten_take_succ (isr : List (List UInt8)) (k : ℕ) :
    (isr.take (k + 1)).flatten.length =
      (isr.headD []).length + (isr.tail.take k).flatten.length := by
  cases isr with
  | nil => simp
  | cons chs isr => simp

/-- A read takes no more than `m` characters iff they run out by then. -/
theorem readQueue_length_le {cap : ℕ} : ∀ (n m : ℕ) (isr : List (List UInt8)) (q : List UInt8),
    m < n → m < cap → q.length ≤ cap →
    ((readQueue cap n isr q).2.length ≤ m ↔
      ∃ k ≤ m, q.length + (isr.take k).flatten.length ≤ k)
  | 0, m, _, _, hn, _, _ => absurd hn (Nat.not_lt_zero m)
  | n + 1, m, isr, [], _, _, _ => by
    refine iff_of_true (by simp [readQueue]) ⟨0, Nat.zero_le m, by simp⟩
  | n + 1, 0, isr, ch :: q, _, _, _ => by
    refine iff_of_false (by simp [readQueue]) ?_
    rintro ⟨k, hk, h⟩
    rw [List.length_cons] at h
    omega
  | n + 1, m + 1, isr, ch :: q, hn, hcap, hq => by
    rw [List.length_cons] at hq
    have hlength := foldl_received_length cap (isr.headD []) q (by omega)
    have hle : ((isr.headD []).foldl (received cap) q).length ≤ cap := by
      rw [hlength]
      exact min_le_left _ _
    have ih := readQueue_length_le n m isr.tail ((isr.headD []).foldl (received cap) q)
      (by omega) (by omega) hle
    simp only [readQueue, List.length_cons, Nat.add_le_add_iff_right, ih, hlength]
    constructor
    · rintro ⟨k, hk, h⟩
      refine ⟨k + 1, by omega, ?_⟩
      rw [flatten_take_succ]
      omega
    · rintro ⟨k, hk, h⟩
      cases k with
      | zero => omega
      | succ k =>
        rw [flatten_take_succ] at h
        exact ⟨k, by omega, by omega⟩

/-! ### The semaphore and the ring -/

theorem foldl_isr_held : ∀ (isrs : List (List UInt8)) (port : Port) {q : List UInt8},
    Holds rbBufsz port.ring q →
    Holds rbBufsz (isrs.foldl Port.isr port).ring (isrs.flatten.foldl (received (2 ^ 11 - 1)) q)
  | [], _, _, h => h
  | chs :: isrs, port, q, h => by
    rw [List.flatten_cons, List.foldl_append, List.foldl_cons]
    exact foldl_isr_held isrs (port.isr chs) (h.foldl_putc (by decide) chs)

theorem semTake_ring (port : Port) (waiting : List (List UInt8)) :
    (semTake port waiting).1.ring = (waiting.foldl Port.isr port).ring := by
  rw [semTake]
  split_ifs <;> rfl

/-- What a read takes, in terms of the characters in the ring. -/
theorem deviceRead_held {port : Port} {q : List UInt8} (h : Holds rbBufsz port.ring q) (len : ℕ)
    (reading : List (List (List UInt8))) :
    (deviceRead port len reading).2 =
        (readQueue (2 ^ 11 - 1) len (reading.map List.flatten) q).2 ∧
      Holds rbBufsz (deviceRead port len reading).1.ring
        (readQueue (2 ^ 11 - 1) len (reading.map List.flatten) q).1 :=
  h.read (by decide) len (reading.map List.flatten)

theorem deviceRead_length_le {port : Port} {q : List UInt8} (h : Holds rbBufsz port.ring q)
    {m len : ℕ} (hm : m < len) (hcap : m < 2 ^ 11 - 1) (reading : List (List (List UInt8))) :
    (deviceRead port len reading).2.length ≤ m ↔ RunsOut q.length m reading := by
  have hlt := h.lt
  rw [(deviceRead_held h len reading).1, RunsOut]
  exact readQueue_length_le len m (reading.map List.flatten) q hm hcap (Nat.le_sub_one_of_lt hlt)

/-- `clearbuffer` ends when the ring is empty. -/
theorem clearbuffer_empty : ∀ (rounds : List Round) {port port' : Port},
    clearbuffer rounds port = some port' → Holds rbBufsz port'.ring []
  | [], _, _, h => by cases h
  | r :: rounds, port, port', h => by
    rw [clearbuffer] at h
    split_ifs at h with hnone
    · obtain rfl := Option.some.inj h
      obtain ⟨q, hq⟩ := (semTake port r.waiting).1.held
      obtain ⟨hbytes, hrest⟩ := deviceRead_held hq 50 r.reading
      rw [readIspSerialData, hbytes] at hnone
      rw [readIspSerialData]
      cases q with
      | nil => exact hrest
      | cons ch q => simp [readQueue] at hnone
    · exact clearbuffer_empty rounds h

/-! ### The single read -/

/-- Characters that the ring has lost would not have fitted anyway. -/
theorem runsOut_min {cap room : ℕ} (hcap : room < cap) (n : ℕ)
    (reading : List (List (List UInt8))) :
    RunsOut (min cap n) room reading ↔ RunsOut n room reading := by
  constructor
  · rintro ⟨k, hk, h⟩
    exact ⟨k, hk, by omega⟩
  · rintro ⟨k, hk, h⟩
    exact ⟨k, hk, by omega⟩

/-- A read in an empty ring, with the interrupts before it. -/
theorem reply_length_le {port : Port} (h : Holds rbBufsz port.ring []) (writing : List (List UInt8))
    (r : Round) {m len : ℕ} (hm : m < len) (hcap : m < 2 ^ 11 - 1) :
    (readIspSerialData (writing.foldl Port.isr port) len r).2.length ≤ m ↔
      RunsOut (writing ++ r.waiting).flatten.length m r.reading := by
  have hwriting := foldl_isr_held writing port h
  have hwaiting := foldl_isr_held r.waiting (writing.foldl Port.isr port) hwriting
  rw [← semTake_ring, ← List.foldl_append, ← List.flatten_append] at hwaiting
  have hlength := foldl_received_length (2 ^ 11 - 1) (writing ++ r.waiting).flatten []
    (Nat.zero_le _)
  rw [List.length_nil, zero_add] at hlength
  rw [readIspSerialData, deviceRead_length_le hwaiting hm hcap, hlength]
  exact runsOut_min hcap _ _

theorem ack_iff (port : Port) (buffer : ℤ → UInt8) (len : ℕ) (t : AckTiming) :
    (∀ a, writeIspBufferAck port buffer len t = some a → Inside ispBufferLen a.2.2.1) ↔
      AckFits port t := by
  rw [AckFits, writeIspBufferAck]
  rcases hclear : clearbuffer t.clear port with _ | port'
  · simp
  · have hempty := clearbuffer_empty t.clear hclear
    have hread := @reply_length_le { port' with sem := 0 } hempty t.writing t.reply ispBufferLen
      100 (by decide) (by decide)
    simp only [Option.map_some, Option.some.injEq, forall_eq', Option.isSome_some, true_imp_iff]
    rw [← hread, inside_append, inside_place, inside_place]
    simp only [List.cons_ne_nil, false_or, List.length_singleton, ispBufferLen]
    constructor
    · rintro ⟨_, h | h⟩
      · simp [h]
      · omega
    · intro h
      exact ⟨by decide, .inr ⟨le_rfl, by omega⟩⟩

/-! ### The loop -/

/-- The bytes so far are in the buffer, one behind the other. -/
structure Inv (s : AckV2) : Prop where
  size : s.size = s.stores.length
  inside : Inside ispBufferLen s.stores
  le : s.stores.length ≤ ispBufferLen
  returned : ∀ v, s.returned = some v → v = s.stores.length

theorem inv_start (port : Port) (writing : List (List UInt8)) : Inv (ackV2Start port writing) where
  size := rfl
  inside := inside_nil
  le := Nat.zero_le _
  returned v h := by cases h

theorem readQueue_length (cap : ℕ) : ∀ (n : ℕ) (isr : List (List UInt8)) (q : List UInt8),
    (readQueue cap n isr q).2.length ≤ n
  | 0, _, _ => Nat.zero_le _
  | _ + 1, _, [] => Nat.zero_le _
  | n + 1, isr, _ :: _ => Nat.succ_le_succ (readQueue_length cap n isr.tail _)

/-- The bytes of a round that takes the semaphore. -/
def roundBytes (s : AckV2) (r : Round) : List UInt8 :=
  (deviceRead (semTake s.port r.waiting).1 ispBufferLen r.reading).2

theorem round_takes {s : AckV2} {r : Round} (hnone : s.returned = none)
    (htake : (semTake s.port r.waiting).2 = true) :
    (ackV2Round ispBufferLen s r).stores = s.stores ++ place s.size (roundBytes s r) ∧
      (ackV2Round ispBufferLen s r).returned = none ∧
      (ackV2Round ispBufferLen s r).size =
        Int.bmod (s.size + (roundBytes s r).length) (2 ^ 32) := by
  rw [ackV2Round, hnone]
  simp only [htake, if_true]
  exact ⟨rfl, trivial, rfl⟩

theorem round_ends {s : AckV2} {r : Round} (hnone : s.returned = none)
    (htake : (semTake s.port r.waiting).2 = false) :
    ackV2Round ispBufferLen s r =
      { s with port := (semTake s.port r.waiting).1, returned := some s.size } := by
  rw [ackV2Round, hnone]
  simp only [htake, Bool.false_eq_true, if_false]

theorem round_returned {s : AckV2} {v : ℤ} (r : Round) (hsome : s.returned = some v) :
    ackV2Round ispBufferLen s r = s := by
  rw [ackV2Round, hsome]

/-- The first read cannot take too much; a later one takes no more than fits iff there is no
    more. -/
theorem roundBytes_fit {s : AckV2} (inv : Inv s) (r : Round) :
    s.stores.length + (roundBytes s r).length ≤ ispBufferLen ↔
      s.size = 0 ∨ RunsOut (serialRingbufferSize rbBufsz (semTake s.port r.waiting).1.ring)
        (ispBufferLen - s.size.toNat) r.reading := by
  obtain ⟨q, hq⟩ := (semTake s.port r.waiting).1.held
  have hsize := inv.size
  have hle := inv.le
  have hwaiting : serialRingbufferSize rbBufsz (semTake s.port r.waiting).1.ring = q.length :=
    hq.size (by decide)
  rw [hwaiting]
  by_cases hfirst : s.size = 0
  · have hall : (roundBytes s r).length ≤ ispBufferLen := by
      rw [roundBytes, (deviceRead_held hq _ _).1]
      exact readQueue_length _ _ _ _
    refine iff_of_true ?_ (.inl hfirst)
    omega
  · have hroom : ispBufferLen - s.size.toNat < ispBufferLen := by
      rw [ispBufferLen] at hle ⊢
      omega
    have hread := deviceRead_length_le hq hroom (hroom.trans (by decide)) r.reading
    rw [or_iff_right hfirst, ← hread, roundBytes]
    omega

theorem inBuffer_iff {s : AckV2} (inv : Inv s) (r : Round) : InBuffer s r ↔ RoundFits s r := by
  rw [InBuffer, RoundFits]
  rcases hreturned : s.returned with _ | v
  · rcases htake : (semTake s.port r.waiting).2 with _ | _
    · refine iff_of_true ?_ (by simp)
      rw [round_ends hreturned htake]
      refine ⟨inv.inside, ?_⟩
      rintro v hv
      rw [← inv.size]
      exact (Option.some.inj hv).symm
    · obtain ⟨hstores, hnone, _⟩ := round_takes hreturned htake
      have hfit := roundBytes_fit inv r
      have hsize := inv.size
      have hle := inv.le
      rw [hstores, hnone, inside_append, inside_place]
      simp only [reduceCtorEq, false_imp_iff, implies_true, and_true, true_imp_iff, ← hfit]
      constructor
      · rintro ⟨_, h | h⟩
        · rw [h]
          simpa using hle
        · omega
      · intro h
        exact ⟨inv.inside, .inr ⟨by omega, by omega⟩⟩
  · refine iff_of_true ?_ (by simp)
    rw [round_returned r hreturned]
    exact ⟨inv.inside, inv.returned⟩

theorem Inv.round {s : AckV2} (inv : Inv s) (r : Round) (hfits : RoundFits s r) :
    Inv (ackV2Round ispBufferLen s r) := by
  have hin := (inBuffer_iff inv r).2 hfits
  rcases hreturned : s.returned with _ | v
  · rcases htake : (semTake s.port r.waiting).2 with _ | _
    · have hround := round_ends hreturned htake
      refine ⟨?_, hin.1, ?_, hin.2⟩
      · rw [hround]
        exact inv.size
      · rw [hround]
        exact inv.le
    · obtain ⟨hstores, _, hsize'⟩ := round_takes hreturned htake
      have hfit := (roundBytes_fit inv r).2 (hfits hreturned htake)
      have hlength : (place s.size (roundBytes s r)).length = (roundBytes s r).length :=
        place_length _ _
      refine ⟨?_, hin.1, ?_, hin.2⟩
      · rw [hsize', hstores, List.length_append, hlength, inv.size]
        rw [ispBufferLen] at hfit
        push_cast
        rw [Int.bmod_def]
        omega
      · rw [hstores, List.length_append, hlength]
        exact hfit
  · rw [round_returned r hreturned]
    exact inv

/-- CORRECT: the replies stay in the buffer iff what comes after `clearbuffer` runs out in it, and
    what is there to be read in each round but the first runs out in what the rounds before have
    left. -/
theorem repliesFit_iff (port : Port) (buffer : ℤ → UInt8) (len : ℕ) (t : AckTiming)
    (writing : List (List UInt8)) (rounds : List Round) :
    RepliesFit port buffer len t writing rounds ↔
      AckFits port t ∧
        Along (ackV2Round ispBufferLen) RoundFits (ackV2Start port writing) rounds := by
  have hv2 := Along.iff (f := ackV2Round ispBufferLen) (P := InBuffer) (Q := RoundFits)
    (fun _ r inv => inBuffer_iff inv r) (fun _ r inv hfits => inv.round r hfits) rounds
    (inv_start port writing)
  rw [← ack_iff port buffer len, ← hv2]
  constructor
  · rintro ⟨hack, hrounds⟩
    exact ⟨hack, hrounds⟩
  · rintro ⟨hack, hrounds⟩
    exact ⟨hack, hrounds⟩

/-- A port that has had nothing. -/
def quiet : Port := ⟨serialRingbufferInit, 0, [], init_holds 11⟩

/-- The target sends 33 bytes while the command is written. -/
theorem not_repliesFit : ¬RepliesFit quiet (fun _ => 0) 1
    ⟨[⟨[], []⟩], [List.replicate 33 0x79], ⟨[], []⟩⟩ [] [] := by
  intro h
  obtain ⟨k, hk, hle⟩ := (ack_iff _ _ _ _).1 h.ack (by decide)
  rw [List.append_nil, List.flatten_singleton, List.length_replicate, ispBufferLen] at *
  omega

end EasyCore.IspReply
