import EasyCore.Drivers.RingBuffer

/-! Forced writes into a ring buffer (`components/drivers/src/ringbuffer.c`): when the buffer is full, old
    data is to be discarded. The state is looked at before the write only, and the front of the data is
    written, however long it is:

        full    a b c d   + x y    ──▶   c d x y
        partly  a b c     + x y    ──▶   y            the write index has passed the read index
        any               + long   ──▶   its front -/

namespace EasyCore.RingBuffer
open Function Kernel Runs

/-- `rt_ringbuffer_put_force` of the `length` bytes at `ptr`, and its return value. -/
def rtRingbufferPutForce (rb : RtRingbuffer) (ptr : List UInt8) : RtRingbuffer × ℕ :=
  let oldState := rtRingbufferStatus rb
  let length := if rb.bufferSize < ptr.length then rb.bufferSize else ptr.length
  let room := rb.bufferSize - rb.writeIndex
  if length < room then
    let rb := { rb with
      bufferPtr := memcpyTo rb.bufferPtr rb.writeIndex (ptr.take length)
      writeIndex := (rb.writeIndex + length) % 2 ^ 15 }
    match oldState with
    | .full => ({ rb with readIndex := rb.writeIndex }, length)
    | _ => (rb, length)
  else
    let rb := { rb with
      bufferPtr := memcpyTo (memcpyTo rb.bufferPtr rb.writeIndex (ptr.take room)) 0
        ((ptr.drop room).take (length - room))
      writeMirror := !rb.writeMirror
      writeIndex := length - room }
    match oldState with
    | .full => ({ rb with readMirror := !rb.readMirror, readIndex := rb.writeIndex }, length)
    | _ => (rb, length)

/-- `rt_ringbuffer_putchar_force` -/
def rtRingbufferPutcharForce (rb : RtRingbuffer) (ch : UInt8) : RtRingbuffer × ℕ :=
  let oldState := rtRingbufferStatus rb
  let rb := { rb with bufferPtr := update rb.bufferPtr rb.writeIndex ch }
  if rb.writeIndex + 1 = rb.bufferSize then
    let rb := { rb with writeMirror := !rb.writeMirror, writeIndex := 0 }
    match oldState with
    | .full => ({ rb with readMirror := !rb.readMirror, readIndex := rb.writeIndex }, 1)
    | _ => (rb, 1)
  else
    let rb := { rb with writeIndex := (rb.writeIndex + 1) % 2 ^ 15 }
    match oldState with
    | .full => ({ rb with readIndex := rb.writeIndex }, 1)
    | _ => (rb, 1)

/-- The bytes in the buffer, as many as `rt_ringbuffer_data_len` says. -/
def RtRingbuffer.content (rb : RtRingbuffer) : List UInt8 :=
  Ring.items rb.bufferPtr rb.bufferSize rb.readIndex (rtRingbufferDataLen rb)

/-! ### Runs -/

inductive ForceAct
  | call (a : RbAct)
  | putForce (ptr : List UInt8)
  | putcharForce (ch : UInt8)

/-- A call: what it stores for the caller, and its return value. -/
def forceExec (rb : RtRingbuffer) : ForceAct → RtRingbuffer × List UInt8 × ℕ
  | .call a => rbExec rb a
  | .putForce ptr => ((rtRingbufferPutForce rb ptr).1, [], (rtRingbufferPutForce rb ptr).2)
  | .putcharForce ch => ((rtRingbufferPutcharForce rb ch).1, [], (rtRingbufferPutcharForce rb ch).2)

/-- The same call on a queue that keeps the last `cap` bytes of what is forced into it. -/
def lastExec (cap : ℕ) (q : List UInt8) : ForceAct → List UInt8 × List UInt8
  | .call a => ((fifoExec cap q a).1, (fifoExec cap q a).2.1)
  | .putForce ptr => ((q ++ ptr).rtake cap, [])
  | .putcharForce ch => ((q ++ [ch]).rtake cap, [])

/-- The ring buffer and the queue, side by side. -/
def forceStep (cap : ℕ) (p : RtRingbuffer × List UInt8) (a : ForceAct) : RtRingbuffer × List UInt8 :=
  ((forceExec p.1 a).1, (lastExec cap p.2 a).1)

/-- The call reads what it reads from the queue, and the buffer contains the bytes of the queue. -/
structure Forces (cap : ℕ) (p : RtRingbuffer × List UInt8) (a : ForceAct) : Prop where
  reads : (forceExec p.1 a).2.1 = (lastExec cap p.2 a).2
  content : (forceStep cap p a).1.content = (forceStep cap p a).2

/-- A block has room, or is forced into an empty buffer or a full one, and is no longer than the buffer
    or ends as it begins; a character is not forced into a buffer without bytes. -/
def Fits (cap : ℕ) (p : RtRingbuffer × List UInt8) : ForceAct → Prop
  | .call _ => True
  | .putForce ptr => (p.2 = [] ∨ p.2.length = cap ∨ p.2.length + ptr.length ≤ cap)
      ∧ (ptr.length ≤ cap ∨ ptr.take cap = ptr.rtake cap)
  | .putcharForce _ => cap ≠ 0

instance (cap : ℕ) (p : RtRingbuffer × List UInt8) : DecidablePred (Fits cap p)
  | .call _ => inferInstanceAs (Decidable True)
  | .putForce _ => inferInstanceAs (Decidable (_ ∧ _))
  | .putcharForce _ => inferInstanceAs (Decidable (cap ≠ 0))

/-! ### One forced write -/

variable {rb : RtRingbuffer} {q ptr : List UInt8} {cap : ℕ}

theorem Holds.content (h : Holds rb q) : rb.content = q := by
  rw [RtRingbuffer.content, h.dataLen, h.items]

/-- A full buffer: the indices meet, on different sides of the mirror. -/
theorem Holds.full (h : Holds rb q) (hpos : 0 < rb.bufferSize) (hfull : q.length = rb.bufferSize) :
    rb.readIndex = rb.writeIndex ∧ rb.readMirror ≠ rb.writeMirror := by
  have hmirror := h.mirror
  have hout := h.ring.out_lt hpos
  have hin := h.ring.inn_lt hpos
  by_cases hsame : rb.readMirror = rb.writeMirror
  · rw [if_pos hsame] at hmirror
    omega
  · rw [if_neg hsame] at hmirror
    exact ⟨by omega, hsame⟩

theorem Holds.status_full (h : Holds rb q) (hpos : 0 < rb.bufferSize)
    (hfull : q.length = rb.bufferSize) : rtRingbufferStatus rb = .full := by
  obtain ⟨hindex, hmirror⟩ := h.full hpos hfull
  rw [rtRingbufferStatus, if_pos hindex, if_neg hmirror]

theorem Holds.status_ne_full (h : Holds rb q) (hroom : q.length < rb.bufferSize) :
    rtRingbufferStatus rb ≠ .full := by
  have hmirror := h.mirror
  unfold rtRingbufferStatus
  by_cases hindex : rb.readIndex = rb.writeIndex
  · by_cases hsame : rb.readMirror = rb.writeMirror
    · rw [if_pos hindex, if_pos hsame]
      exact nofun
    · rw [if_neg hsame] at hmirror
      omega
  · rw [if_neg hindex]
    exact nofun

/-- The block is stored at the write index, which goes on behind it. -/
def store (rb : RtRingbuffer) (ptr : List UInt8) : RtRingbuffer :=
  let room := rb.bufferSize - rb.writeIndex
  if ptr.length < room then
    { rb with
      bufferPtr := memcpyTo rb.bufferPtr rb.writeIndex ptr
      writeIndex := (rb.writeIndex + ptr.length) % 2 ^ 15 }
  else
    { rb with
      bufferPtr := memcpyTo (memcpyTo rb.bufferPtr rb.writeIndex (ptr.take room)) 0 (ptr.drop room)
      writeMirror := !rb.writeMirror
      writeIndex := ptr.length - room }

theorem put_eq_store (hspace : rtRingbufferSpaceLen rb ≠ 0) (hle : ptr.length ≤ rtRingbufferSpaceLen rb) :
    (rtRingbufferPut rb ptr).1 = store rb ptr := by
  simp only [rtRingbufferPut, store, if_neg hspace, if_neg (not_lt.2 hle), List.take_length]
  rw [List.take_of_length_le (List.length_drop).le]
  by_cases hlt : ptr.length < rb.bufferSize - rb.writeIndex
  · rw [if_pos hlt, if_pos hlt]
  · rw [if_neg hlt, if_neg hlt]

/-- Unless the buffer is full, the read index stays. -/
theorem putForce_eq_store (hstatus : rtRingbufferStatus rb ≠ .full) (hle : ptr.length ≤ rb.bufferSize) :
    (rtRingbufferPutForce rb ptr).1 = store rb ptr := by
  simp only [rtRingbufferPutForce, store, if_neg (not_lt.2 hle), List.take_length]
  rw [List.take_of_length_le (List.length_drop).le]
  cases hold : rtRingbufferStatus rb with
  | full => exact absurd hold hstatus
  | empty =>
    by_cases hlt : ptr.length < rb.bufferSize - rb.writeIndex
    · simp only [if_pos hlt]
    · simp only [if_neg hlt]
  | halffull =>
    by_cases hlt : ptr.length < rb.bufferSize - rb.writeIndex
    · simp only [if_pos hlt]
    · simp only [if_neg hlt]

/-- Only so many bytes are written as the buffer has. -/
theorem putForce_take (rb : RtRingbuffer) (ptr : List UInt8) :
    rtRingbufferPutForce rb (ptr.take rb.bufferSize) = rtRingbufferPutForce rb ptr := by
  unfold rtRingbufferPutForce
  by_cases hlong : rb.bufferSize < ptr.length
  · simp only [List.length_take_of_le hlong.le, lt_irrefl, if_false, if_pos hlong, List.take_take,
      min_self, List.drop_take, min_eq_left (Nat.sub_le rb.bufferSize rb.writeIndex)]
  · rw [List.take_of_length_le (not_lt.1 hlong)]

/-- Into a full buffer: as many bytes are taken out before. -/
theorem putForce_full (h : Holds rb q) (hpos : 0 < rb.bufferSize) (hfull : q.length = rb.bufferSize)
    (hle : ptr.length ≤ rb.bufferSize) : (rtRingbufferPutForce rb ptr).1
      = (rtRingbufferPut (rtRingbufferGet rb ptr.length).1 ptr).1 := by
  obtain ⟨hindex, hmirror⟩ := h.full hpos hfull
  obtain ⟨-, htaken⟩ := rtRingbufferGet_holds h ptr.length
  have hspace := htaken.spaceLen
  have hout := h.ring.out_lt hpos
  have h15 := h.size
  rw [rtRingbufferGet_size, List.length_drop, hfull, Nat.sub_sub_self hle] at hspace
  have hlong : ¬ rb.bufferSize < ptr.length := not_lt.2 hle
  have hall : (ptr.drop (rb.bufferSize - rb.writeIndex)).take
      (ptr.length - (rb.bufferSize - rb.writeIndex)) = ptr.drop (rb.bufferSize - rb.writeIndex) :=
    List.take_of_length_le List.length_drop.le
  have hget : (rtRingbufferGet rb ptr.length).1
      = if ptr.length < rb.bufferSize - rb.writeIndex then
        { rb with readIndex := (rb.writeIndex + ptr.length) % 2 ^ 15 }
      else { rb with
        readMirror := !rb.readMirror, readIndex := ptr.length - (rb.bufferSize - rb.writeIndex) } := by
    simp only [rtRingbufferGet, h.dataLen, hfull, if_neg hpos.ne', if_neg hlong, hindex]
    by_cases hlt : ptr.length < rb.bufferSize - rb.writeIndex
    · simp only [if_pos hlt]
    · simp only [if_neg hlt]
  simp only [rtRingbufferPutForce, h.status_full hpos hfull, if_neg hlong, List.take_length, hall]
  obtain hnil | hne := Nat.eq_zero_or_pos ptr.length
  · obtain rfl := List.length_eq_zero_iff.1 hnil
    have hlt : ([] : List UInt8).length < rb.bufferSize - rb.writeIndex := by
      rw [← hindex]
      exact Nat.sub_pos_of_lt hout
    have hput : rtRingbufferPut (rtRingbufferGet rb 0).1 [] = ((rtRingbufferGet rb 0).1, 0) :=
      if_pos hspace
    rw [if_pos hlt] at hget ⊢
    rw [List.length_nil] at hget ⊢
    rw [hput, hget, memcpyTo_nil, Nat.add_zero, Nat.mod_eq_of_lt (by omega)]
  · rw [put_eq_store (by omega) (by omega), hget]
    by_cases hlt : ptr.length < rb.bufferSize - rb.writeIndex
    · simp only [if_pos hlt, store]
    · simp only [if_neg hlt, store]

/-! ### What a forced write leaves -/

theorem rtake_of_le (hle : q.length + ptr.length ≤ cap) : (q ++ ptr).rtake cap = q ++ ptr := by
  rw [List.rtake, List.length_append, Nat.sub_eq_zero_of_le hle, List.drop_zero]

theorem rtake_full (hfull : q.length = cap) (hle : ptr.length ≤ cap) :
    (q ++ ptr).rtake cap = q.drop ptr.length ++ ptr := by
  rw [List.rtake, List.length_append, hfull, Nat.add_sub_cancel_left,
    List.drop_append_of_le_length (hfull ▸ hle)]

theorem rtake_long (q : List UInt8) (hle : cap ≤ ptr.length) : (q ++ ptr).rtake cap = ptr.rtake cap := by
  rw [List.rtake, List.rtake, List.length_append, Nat.add_sub_assoc hle, List.drop_length_add_append]

theorem length_rtake (xs : List UInt8) : (xs.rtake cap).length = min cap xs.length := by
  rw [List.rtake, List.length_drop]
  omega

/-- In a buffer without bytes nothing changes but the mirrors. -/
theorem putForce_nothing (h : Holds rb q) (hzero : rb.bufferSize = 0) :
    Holds (rtRingbufferPutForce rb []).1 [] := by
  have hout : rb.readIndex = 0 := by
    obtain hlt | heq := h.ring.first
    · omega
    · exact heq.2
  have hmirrors : ∀ rm wm, Holds { rb with
      bufferPtr := memcpyTo (memcpyTo rb.bufferPtr rb.writeIndex []) 0 []
      readMirror := rm, writeMirror := wm, writeIndex := 0 } [] := by
    intro rm wm
    refine ⟨⟨Nat.zero_le _, Or.inr ⟨hzero, hout⟩, ?_⟩, rfl, ?_, h.size⟩
    · dsimp only
      rw [hout, List.length_nil, Nat.zero_mod]
    · dsimp only
      rw [hout, hzero, ite_self]
      rfl
  have hlen : (if rb.bufferSize < ([] : List UInt8).length then rb.bufferSize
      else ([] : List UInt8).length) = 0 := if_neg (Nat.not_lt_zero _)
  have hroom : ¬ 0 < rb.bufferSize - rb.writeIndex := by omega
  simp only [rtRingbufferPutForce, hlen, if_neg hroom, Nat.zero_sub, List.take_nil, List.drop_nil]
  cases rtRingbufferStatus rb with
  | empty => exact hmirrors rb.readMirror (!rb.writeMirror)
  | full =>
    have := hmirrors (!rb.readMirror) (!rb.writeMirror)
    rwa [hout] at this
  | halffull => exact hmirrors rb.readMirror (!rb.writeMirror)

theorem putForce_holds (h : Holds rb q) (hle : ptr.length ≤ rb.bufferSize)
    (hfit : q.length = rb.bufferSize ∨ q.length + ptr.length ≤ rb.bufferSize) :
    Holds (rtRingbufferPutForce rb ptr).1 ((q ++ ptr).rtake rb.bufferSize) := by
  have hq := h.ring.le
  obtain hzero | hpos := Nat.eq_zero_or_pos rb.bufferSize
  · obtain rfl := List.length_eq_zero_iff.1 (Nat.le_zero.1 (hzero ▸ hle))
    obtain rfl := List.length_eq_zero_iff.1 (Nat.le_zero.1 (hzero ▸ hq))
    rw [List.append_nil, List.rtake_nil]
    exact putForce_nothing h hzero
  obtain hlt | hfull := hq.lt_or_eq
  · have hroom : q.length + ptr.length ≤ rb.bufferSize := hfit.resolve_left hlt.ne
    obtain ⟨-, hput⟩ := rtRingbufferPut_holds h ptr
    have hspace := h.spaceLen
    rw [put_eq_store (by omega) (by omega), List.take_of_length_le (by omega)] at hput
    rw [putForce_eq_store (h.status_ne_full hlt) hle, rtake_of_le hroom]
    exact hput
  · obtain ⟨-, htaken⟩ := rtRingbufferGet_holds h ptr.length
    obtain ⟨-, hput⟩ := rtRingbufferPut_holds htaken ptr
    rw [rtRingbufferGet_size, List.length_drop, hfull, Nat.sub_sub_self hle, List.take_length] at hput
    rw [putForce_full h hpos hfull hle, rtake_full hfull hle]
    exact hput

/-- Fewer bytes than the buffer has, if the indices do not meet. -/
theorem dataLen_ne (hne : rb.readIndex ≠ rb.writeIndex) (hr : rb.readIndex < rb.bufferSize)
    (hw : rb.writeIndex < rb.bufferSize) : rtRingbufferDataLen rb ≠ rb.bufferSize := by
  rw [rtRingbufferDataLen, rtRingbufferStatus, if_neg hne]
  dsimp only
  by_cases hlt : rb.readIndex < rb.writeIndex
  · rw [if_pos hlt]
    omega
  · rw [if_neg hlt]
    omega

theorem store_fields (rb : RtRingbuffer) (ptr : List UInt8) (hin : rb.writeIndex < rb.bufferSize)
    (hle : ptr.length ≤ rb.bufferSize) (h15 : rb.bufferSize < 2 ^ 15) :
    (store rb ptr).readIndex = rb.readIndex ∧ (store rb ptr).bufferSize = rb.bufferSize
      ∧ (store rb ptr).writeIndex = (rb.writeIndex + ptr.length) % rb.bufferSize := by
  have hwrap := wrap hin hle
  unfold store
  by_cases hlt : ptr.length < rb.bufferSize - rb.writeIndex
  · rw [if_pos hlt] at hwrap
    rw [if_pos hlt, hwrap]
    exact ⟨rfl, rfl, Nat.mod_eq_of_lt (by omega)⟩
  · rw [if_neg hlt] at hwrap
    rw [if_neg hlt, hwrap]
    exact ⟨rfl, rfl, rfl⟩

/-- A block that has no room in a partly filled buffer: the write index passes the read index. -/
theorem putForce_overrun (h : Holds rb q) (hlt : q.length < rb.bufferSize) (hpos : 0 < q.length)
    (hle : ptr.length ≤ rb.bufferSize) (hover : rb.bufferSize < q.length + ptr.length) :
    (rtRingbufferPutForce rb ptr).1.content.length ≠ rb.bufferSize := by
  have hsize : 0 < rb.bufferSize := by omega
  have hin := h.ring.inn_lt hsize
  have hout := h.ring.out_lt hsize
  have hfree := h.ring.free
  obtain ⟨hread, hbuf, hwrite⟩ := store_fields rb ptr hin hle h.size
  rw [putForce_eq_store (h.status_ne_full hlt) hle, RtRingbuffer.content, Ring.length_items, ← hbuf]
  refine dataLen_ne ?_ ?_ ?_
  · rw [hread, hwrite, hfree, Nat.mod_add_mod]
    -- between one and two times around from the read index
    rw [show rb.readIndex + q.length + ptr.length
        = rb.readIndex + (q.length + ptr.length - rb.bufferSize) + rb.bufferSize by omega,
      Nat.add_mod_right, wrap hout (by omega)]
    split_ifs
    · omega
    · omega
  · rw [hread, hbuf]
    exact hout
  · rw [hwrite, hbuf]
    exact Nat.mod_lt _ hsize

theorem rtake_self {xs : List UInt8} (hlen : xs.length ≤ cap) : xs.rtake cap = xs := by
  rw [List.rtake, Nat.sub_eq_zero_of_le hlen, List.drop_zero]

/-- What is written of a block that is longer than the buffer. -/
theorem rtake_take (q : List UInt8) (hlong : cap < ptr.length) :
    (q ++ ptr.take cap).rtake cap = ptr.take cap := by
  have hlen : (ptr.take cap).length = cap := List.length_take_of_le hlong.le
  rw [rtake_long q hlen.ge, rtake_self hlen.le]

theorem putForce_of_fits (h : Holds rb q) (hfits : Fits rb.bufferSize (rb, q) (.putForce ptr)) :
    Holds (rtRingbufferPutForce rb ptr).1 ((q ++ ptr).rtake rb.bufferSize) := by
  obtain ⟨hfit, hends⟩ := hfits
  have hle : (ptr.take rb.bufferSize).length ≤ rb.bufferSize := List.length_take_le _ _
  have hfit' : q.length = rb.bufferSize
      ∨ q.length + (ptr.take rb.bufferSize).length ≤ rb.bufferSize := by
    obtain hnil | hfull | hroom := hfit
    · dsimp only at hnil
      rw [hnil, List.length_nil, Nat.zero_add]
      exact Or.inr hle
    · exact Or.inl hfull
    · exact Or.inr ((Nat.add_le_add_left (List.length_take_le' _ _) _).trans hroom)
  have hholds := putForce_holds h hle hfit'
  rw [putForce_take] at hholds
  obtain hshort | hlong := Nat.lt_or_ge rb.bufferSize ptr.length |>.symm
  · rwa [List.take_of_length_le hshort] at hholds
  · rw [rtake_take q hlong, hends.resolve_left (not_le.2 hlong)] at hholds
    rwa [rtake_long q hlong.le]

theorem fits_of_putForce (h : Holds rb q)
    (hcontent : (rtRingbufferPutForce rb ptr).1.content = (q ++ ptr).rtake rb.bufferSize) :
    Fits rb.bufferSize (rb, q) (.putForce ptr) := by
  have hle : (ptr.take rb.bufferSize).length ≤ rb.bufferSize := List.length_take_le _ _
  have hmin : (ptr.take rb.bufferSize).length = min rb.bufferSize ptr.length := List.length_take
  have hfit : q = [] ∨ q.length = rb.bufferSize ∨ q.length + ptr.length ≤ rb.bufferSize := by
    by_contra hnot
    obtain ⟨hne, hnot⟩ := not_or.1 hnot
    obtain ⟨hnotFull, hover⟩ := not_or.1 hnot
    have hover := not_le.1 hover
    have hlt : q.length < rb.bufferSize := lt_of_le_of_ne h.ring.le hnotFull
    have hpos := List.length_pos_iff.2 hne
    refine putForce_overrun h hlt hpos hle (by omega) ?_
    rw [putForce_take, hcontent, length_rtake, List.length_append]
    exact min_eq_left hover.le
  refine ⟨hfit, ?_⟩
  obtain hshort | hlong := Nat.lt_or_ge rb.bufferSize ptr.length |>.symm
  · exact Or.inl hshort
  · have hfit' : q.length = rb.bufferSize
        ∨ q.length + (ptr.take rb.bufferSize).length ≤ rb.bufferSize := by
      obtain rfl | hfull | hroom := hfit
      · rw [List.length_nil, Nat.zero_add]
        exact Or.inr hle
      · exact Or.inl hfull
      · omega
    have hfront := (putForce_holds h hle hfit').content
    rw [putForce_take, hcontent, rtake_take q hlong, rtake_long q hlong.le] at hfront
    exact Or.inr hfront.symm

theorem rtRingbufferPutForce_size (rb : RtRingbuffer) (ptr : List UInt8) :
    (rtRingbufferPutForce rb ptr).1.bufferSize = rb.bufferSize := by
  simp only [rtRingbufferPutForce]
  split_ifs
  all_goals
    cases rtRingbufferStatus rb
    all_goals rfl

/-- A character is forced into the buffer as a block of one byte is. -/
theorem putcharForce_eq (h : Holds rb q) (hpos : 0 < rb.bufferSize) (ch : UInt8) :
    rtRingbufferPutcharForce rb ch = rtRingbufferPutForce rb [ch] := by
  have hin := h.ring.inn_lt hpos
  have hlen : (if rb.bufferSize < [ch].length then rb.bufferSize else [ch].length) = 1 :=
    if_neg (Nat.not_lt.2 hpos)
  simp only [rtRingbufferPutcharForce, rtRingbufferPutForce, hlen, List.take_succ_cons, List.take_zero,
    memcpyTo_singleton]
  by_cases hlast : rb.writeIndex + 1 = rb.bufferSize
  · rw [if_pos hlast, if_neg (by omega), show rb.bufferSize - rb.writeIndex = 1 by omega]
    simp only [List.take_succ_cons, List.drop_succ_cons, List.drop_nil, List.take_nil,
      memcpyTo_singleton, memcpyTo_nil, Nat.sub_self]
  · rw [if_neg hlast, if_pos (by omega)]

/-! ### One call, and a run -/

/-- A call that fits leaves the bytes of the queue in the buffer. -/
theorem forceExec_holds (h : Holds rb q) {a : ForceAct} (hfits : Fits rb.bufferSize (rb, q) a) :
    (forceExec rb a).2.1 = (lastExec rb.bufferSize q a).2
      ∧ Holds (forceExec rb a).1 (lastExec rb.bufferSize q a).1
      ∧ (forceExec rb a).1.bufferSize = rb.bufferSize := by
  cases a with
  | call a =>
    obtain ⟨hret, hholds, hsize⟩ := rbExec_holds h a
    exact ⟨congrArg Prod.fst hret, hholds, hsize⟩
  | putForce ptr => exact ⟨rfl, putForce_of_fits h hfits, rtRingbufferPutForce_size rb ptr⟩
  | putcharForce ch =>
    have hpos : 0 < rb.bufferSize := Nat.pos_of_ne_zero hfits
    have hq := h.ring.le
    have hone : Fits rb.bufferSize (rb, q) (.putForce [ch]) := by
      refine ⟨?_, Or.inl hpos⟩
      obtain hlt | hfull := hq.lt_or_eq
      · exact Or.inr (Or.inr hlt)
      · exact Or.inr (Or.inl hfull)
    rw [forceExec, putcharForce_eq h hpos]
    exact ⟨rfl, putForce_of_fits h hone, rtRingbufferPutForce_size rb [ch]⟩

theorem forces_of_fits {p : RtRingbuffer × List UInt8} {a : ForceAct} (h : Holds p.1 p.2)
    (hcap : p.1.bufferSize = cap) (hfits : Fits cap p a) :
    Forces cap p a ∧ Holds (forceStep cap p a).1 (forceStep cap p a).2
      ∧ (forceStep cap p a).1.bufferSize = cap := by
  subst hcap
  obtain ⟨hreads, hholds, hsize⟩ := forceExec_holds h hfits
  exact ⟨⟨hreads, hholds.content⟩, hholds, hsize⟩

theorem fits_of_forces {p : RtRingbuffer × List UInt8} {a : ForceAct} (h : Holds p.1 p.2)
    (hcap : p.1.bufferSize = cap) (hpos : 0 < cap) (hforces : Forces cap p a) : Fits cap p a := by
  subst hcap
  cases a with
  | call a => trivial
  | putForce ptr => exact fits_of_putForce h hforces.content
  | putcharForce ch => exact hpos.ne'

/-- CORRECT: in a run whose forced writes fit, the buffer contains the last bytes of what is put into it
    and reads return them; and with room for a byte, in no other run. -/
theorem run_forces_iff (pool : ℕ → UInt8) {size : ℕ} (hsize : size ≤ 32767) (acts : List ForceAct) :
    (Along (forceStep (rtAlignDown size)) (Fits (rtAlignDown size)) (rtRingbufferInit pool size, []) acts →
      Along (forceStep (rtAlignDown size)) (Forces (rtAlignDown size)) (rtRingbufferInit pool size, [])
        acts)
      ∧ (4 ≤ size →
        Along (forceStep (rtAlignDown size)) (Forces (rtAlignDown size)) (rtRingbufferInit pool size, [])
          acts →
        Along (forceStep (rtAlignDown size)) (Fits (rtAlignDown size)) (rtRingbufferInit pool size, [])
          acts) := by
  have hinit : Holds (rtRingbufferInit pool size) []
      ∧ (rtRingbufferInit pool size).bufferSize = rtAlignDown size := ⟨init_holds pool (by omega), rfl⟩
  have hkeep : ∀ (p : RtRingbuffer × List UInt8) (a : ForceAct),
      (Holds p.1 p.2 ∧ p.1.bufferSize = rtAlignDown size) → Fits (rtAlignDown size) p a →
      Holds (forceStep (rtAlignDown size) p a).1 (forceStep (rtAlignDown size) p a).2
        ∧ (forceStep (rtAlignDown size) p a).1.bufferSize = rtAlignDown size :=
    fun p a hp hfits => (forces_of_fits hp.1 hp.2 hfits).2
  constructor
  · exact Along.imp (fun p a hp hfits => (forces_of_fits hp.1 hp.2 hfits).1) hkeep acts hinit
  · intro hroom
    have hpos : 0 < rtAlignDown size := by
      rw [rtAlignDown]
      omega
    refine (Along.iff (fun p a hp => ?_) hkeep acts hinit).1
    exact ⟨fits_of_forces hp.1 hp.2 hpos, fun hfits => (forces_of_fits hp.1 hp.2 hfits).1⟩

/-- Characters and blocks are forced into a full buffer, and one block into an empty one. -/
theorem run_forces_iff_four : Along (forceStep (rtAlignDown 4)) (Forces (rtAlignDown 4))
    (rtRingbufferInit (fun _ => 0) 4, [])
    [.call (.put [1, 2, 3, 4, 5]), .putcharForce 6, .call (.get 1), .putForce [7], .putForce [8, 9],
      .call (.get 4), .putForce [1, 2, 3, 4]] :=
  (run_forces_iff _ (by decide) _).1 (by decide)

/-- INCORRECT when there is room for some of the data only: two bytes are forced behind three, and one is
    left. -/
theorem not_forces_partly : ¬ Along (forceStep (rtAlignDown 4)) (Forces (rtAlignDown 4))
    (rtRingbufferInit (fun _ => 0) 4, []) [.call (.put [1, 2, 3]), .putForce [4, 5]] := by
  rintro ⟨-, ⟨-, hcontent⟩, -⟩
  exact absurd hcontent (by decide)

end EasyCore.RingBuffer
