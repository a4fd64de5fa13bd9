import EasyCore.Kernel.Word
import EasyCore.Lib.Ring
import EasyCore.Lib.Runs

/-! The ring buffer of the device drivers (`components/drivers/src/ringbuffer.c`). A mirror bit beside
    each index says on which side of the mirror it is: with equal indices the buffer is empty if the
    mirrors are the same, and full if not. -/

namespace EasyCore.RingBuffer
open Function Kernel Runs

/-- `struct rt_ringbuffer`: the mirrors are bit fields of one bit, the indices of 15. -/
structure RtRingbuffer where
  bufferPtr : ℕ → UInt8
  readMirror : Bool
  readIndex : ℕ
  writeMirror : Bool
  writeIndex : ℕ
  bufferSize : ℕ

/-- `rt_ringbuffer_init` -/
def rtRingbufferInit (pool : ℕ → UInt8) (size : ℕ) : RtRingbuffer :=
  ⟨pool, false, 0, false, 0, rtAlignDown size⟩

/-- `enum rt_ringbuffer_state` -/
inductive RtRingbufferState
  | empty | full | halffull

/-- `rt_ringbuffer_status` -/
def rtRingbufferStatus (rb : RtRingbuffer) : RtRingbufferState :=
  if rb.readIndex = rb.writeIndex then
    if rb.readMirror = rb.writeMirror then .empty else .full
  else .halffull

/-- `rt_ringbuffer_data_len` -/
def rtRingbufferDataLen (rb : RtRingbuffer) : ℕ :=
  match rtRingbufferStatus rb with
  | .empty => 0
  | .full => rb.bufferSize
  | .halffull =>
    if rb.readIndex < rb.writeIndex then rb.writeIndex - rb.readIndex
    else rb.bufferSize - (rb.readIndex - rb.writeIndex)

/-- `rt_ringbuffer_space_len` -/
def rtRingbufferSpaceLen (rb : RtRingbuffer) : ℕ := rb.bufferSize - rtRingbufferDataLen rb

/-- `memcpy` to the index `i` of a buffer. -/
def memcpyTo (dst : ℕ → UInt8) (i : ℕ) (src : List UInt8) : ℕ → UInt8 := fun j =>
  if i ≤ j then src[j - i]?.getD (dst j) else dst j

/-- `memcpy` of `count` bytes from the index `i` of a buffer. -/
def memcpyFrom (src : ℕ → UInt8) (i count : ℕ) : List UInt8 :=
  (List.range count).map fun j => src (i + j)

/-- `rt_ringbuffer_put` of the `length` bytes at `ptr`, and its return value. -/
def rtRingbufferPut (rb : RtRingbuffer) (ptr : List UInt8) : RtRingbuffer × ℕ :=
  let size := rtRingbufferSpaceLen rb
  if size = 0 then (rb, 0)
  else
    let length := if size < ptr.length then size else ptr.length
    let room := rb.bufferSize - rb.writeIndex
    if length < room then
      ({ rb with
        bufferPtr := memcpyTo rb.bufferPtr rb.writeIndex (ptr.take length)
        writeIndex := (rb.writeIndex + length) % 2 ^ 15 }, length)
    else
      ({ rb with
        bufferPtr := memcpyTo (memcpyTo rb.bufferPtr rb.writeIndex (ptr.take room)) 0
          ((ptr.drop room).take (length - room))
        writeMirror := !rb.writeMirror
        writeIndex := length - room }, length)

/-- `rt_ringbuffer_get`: what it stores at `ptr`, and its return value. -/
def rtRingbufferGet (rb : RtRingbuffer) (length : ℕ) : RtRingbuffer × List UInt8 × ℕ :=
  let size := rtRingbufferDataLen rb
  if size = 0 then (rb, [], 0)
  else
    let length := if size < length then size else length
    let room := rb.bufferSize - rb.readIndex
    if length < room then
      ({ rb with readIndex := (rb.readIndex + length) % 2 ^ 15 },
        memcpyFrom rb.bufferPtr rb.readIndex length, length)
    else
      ({ rb with readMirror := !rb.readMirror, readIndex := length - room },
        memcpyFrom rb.bufferPtr rb.readIndex room ++ memcpyFrom rb.bufferPtr 0 (length - room), length)

/-- `rt_ringbuffer_putchar` -/
def rtRingbufferPutchar (rb : RtRingbuffer) (ch : UInt8) : RtRingbuffer × ℕ :=
  if rtRingbufferSpaceLen rb = 0 then (rb, 0)
  else
    let rb := { rb with bufferPtr := update rb.bufferPtr rb.writeIndex ch }
    if rb.writeIndex = rb.bufferSize - 1 then
      ({ rb with writeMirror := !rb.writeMirror, writeIndex := 0 }, 1)
    else ({ rb with writeIndex := (rb.writeIndex + 1) % 2 ^ 15 }, 1)

/-- `rt_ringbuffer_getchar`: what it stores at `ch`, and its return value. -/
def rtRingbufferGetchar (rb : RtRingbuffer) : RtRingbuffer × List UInt8 × ℕ :=
  if rtRingbufferDataLen rb = 0 then (rb, [], 0)
  else
    let ch := rb.bufferPtr rb.readIndex
    if rb.readIndex = rb.bufferSize - 1 then
      ({ rb with readMirror := !rb.readMirror, readIndex := 0 }, [ch], 1)
    else ({ rb with readIndex := (rb.readIndex + 1) % 2 ^ 15 }, [ch], 1)

/-! ### The bytes in the buffer -/

/-- The buffer holds the bytes `q`: without a wrap if the mirrors are the same, with one if not. -/
structure Holds (rb : RtRingbuffer) (q : List UInt8) : Prop where
  ring : Ring.Ok rb.bufferSize rb.writeIndex rb.readIndex q.length
  items : Ring.items rb.bufferPtr rb.bufferSize rb.readIndex q.length = q
  mirror : rb.readIndex + q.length
    = rb.writeIndex + if rb.readMirror = rb.writeMirror then 0 else rb.bufferSize
  size : rb.bufferSize < 2 ^ 15

variable {rb : RtRingbuffer} {q : List UInt8} {size out n m i : ℕ}

theorem init_holds (pool : ℕ → UInt8) (hsize : size < 2 ^ 15) :
    Holds (rtRingbufferInit pool size) [] :=
  ⟨Ring.Ok.empty _, rfl, rfl, (Nat.sub_le _ _).trans_lt hsize⟩

namespace Holds

theorem dataLen (h : Holds rb q) : rtRingbufferDataLen rb = q.length := by
  have hmirror := h.mirror
  have hle := h.ring.le
  have hfirst := h.ring.first
  have hfree : rb.writeIndex < rb.bufferSize ∨ rb.bufferSize = 0 ∧ rb.writeIndex = 0 := by
    obtain hout | ⟨hzero, hout⟩ := hfirst
    · exact Or.inl (h.ring.inn_lt (by omega))
    · refine Or.inr ⟨hzero, ?_⟩
      split_ifs at hmirror
      · omega
      · omega
  unfold rtRingbufferDataLen rtRingbufferStatus
  by_cases heq : rb.readIndex = rb.writeIndex
  · by_cases hsame : rb.readMirror = rb.writeMirror
    · simp only [if_pos heq, if_pos hsame] at hmirror ⊢
      omega
    · simp only [if_pos heq, if_neg hsame] at hmirror ⊢
      omega
  · simp only [if_neg heq]
    split_ifs at hmirror ⊢
    all_goals omega

theorem spaceLen (h : Holds rb q) : rtRingbufferSpaceLen rb = rb.bufferSize - q.length := by
  rw [rtRingbufferSpaceLen, h.dataLen]

/-- The indices are below the size, unless there is no room at all. -/
theorem writeIndex_lt (h : Holds rb q) (hpos : 0 < rb.bufferSize) : rb.writeIndex < rb.bufferSize :=
  h.ring.inn_lt hpos

/-- `k` bytes are taken from the front. -/
theorem drop (h : Holds rb q) {k r : ℕ} {m : Bool} (hk : k ≤ q.length) (hpos : 0 < rb.bufferSize)
    (hr : r = (rb.readIndex + k) % rb.bufferSize)
    (hm : r + (q.length - k) = rb.writeIndex + if m = rb.writeMirror then 0 else rb.bufferSize) :
    Holds { rb with readMirror := m, readIndex := r } (q.drop k) := by
  have hle := h.ring.le
  have hitems := Ring.items_add rb.bufferPtr rb.bufferSize rb.readIndex k (q.length - k)
  rw [Nat.add_sub_of_le hk, h.items, ← hr] at hitems
  have hdrop : q.drop k = Ring.items rb.bufferPtr rb.bufferSize r (q.length - k) := by
    have := congrArg (List.drop k) hitems
    rwa [List.drop_left' Ring.length_items] at this
  refine ⟨⟨?_, Or.inl ?_, ?_⟩, ?_, ?_, h.size⟩
  · rw [List.length_drop]
    exact (Nat.sub_le _ _).trans hle
  · rw [hr]
    exact Nat.mod_lt _ hpos
  · rw [List.length_drop, hr, Nat.mod_add_mod, h.ring.free]
    congr 1
    omega
  · rw [List.length_drop]
    exact hdrop.symm
  · rw [List.length_drop]
    exact hm

/-- The bytes `xs` are stored behind the others. -/
theorem append (h : Holds rb q) {xs : List UInt8} {buf : ℕ → UInt8} {r : ℕ} {m : Bool}
    (hx : q.length + xs.length ≤ rb.bufferSize)
    (hnew : Ring.items buf rb.bufferSize rb.writeIndex xs.length = xs)
    (hold : ∀ i < q.length, buf ((rb.readIndex + i) % rb.bufferSize)
      = rb.bufferPtr ((rb.readIndex + i) % rb.bufferSize))
    (hr : r = (rb.writeIndex + xs.length) % rb.bufferSize)
    (hm : rb.readIndex + (q.length + xs.length)
      = r + if rb.readMirror = m then 0 else rb.bufferSize) :
    Holds { rb with bufferPtr := buf, writeMirror := m, writeIndex := r } (q ++ xs) := by
  refine ⟨⟨?_, h.ring.first, ?_⟩, ?_, ?_, h.size⟩
  · rwa [List.length_append]
  · rw [List.length_append, hr, h.ring.free, Nat.mod_add_mod, Nat.add_assoc]
  · dsimp only
    rw [List.length_append, Ring.items_add, Ring.items_congr hold, h.items, ← h.ring.free, hnew]
  · rw [List.length_append]
    exact hm

end Holds

/-! ### Taking and storing bytes -/

theorem memcpyFrom_items (src : ℕ → UInt8) (size : ℕ) (h : i + n ≤ size) :
    memcpyFrom src i n = Ring.items src size i n := (Ring.items_straight h).symm

theorem flip_eq : ∀ {a b : Bool}, a ≠ b → (!a) = b := by decide

theorem flip_ne : ∀ {a b : Bool}, a = b → a ≠ !b := by decide

/-- What `rt_ringbuffer_get` does with the index: it goes on by `k`, around the end or not. -/
theorem wrap {k : ℕ} (hi : i < size) (hk : k ≤ size) :
    (i + k) % size = if k < size - i then i + k else k - (size - i) := by
  split_ifs with hk'
  · exact Nat.mod_eq_of_lt (by omega)
  · rw [Nat.mod_eq_sub_mod (by omega), Nat.mod_eq_of_lt (by omega)]
    omega

theorem rtRingbufferGet_holds (h : Holds rb q) (length : ℕ) :
    (rtRingbufferGet rb length).2 = (q.take length, min length q.length)
      ∧ Holds (rtRingbufferGet rb length).1 (q.drop length) := by
  unfold rtRingbufferGet
  rw [h.dataLen]
  obtain hzero | hpos := Nat.eq_zero_or_pos q.length
  · obtain rfl := List.length_eq_zero_iff.1 hzero
    simpa using h
  rw [if_neg hpos.ne']
  have hmin : (if q.length < length then q.length else length) = min length q.length := by
    split_ifs
    all_goals omega
  obtain ⟨k, hk⟩ : ∃ k, k = min length q.length := ⟨_, rfl⟩
  rw [hmin, ← hk]
  have hle := h.ring.le
  have hkq : k ≤ q.length := hk ▸ min_le_right _ _
  have hsize : 0 < rb.bufferSize := hpos.trans_le hle
  have hout := h.ring.out_lt hsize
  have hmirror := h.mirror
  have h15 := h.size
  have htake : q.take length = q.take k := by rw [hk, List.take_eq_take_min]
  have hdrop : q.drop length = q.drop k := by
    rw [hk]
    obtain hlt | hlt := Nat.le_total length q.length
    · rw [min_eq_left hlt]
    · rw [min_eq_right hlt, List.drop_of_length_le hlt, List.drop_length]
  have hbytes : q.take k = Ring.items rb.bufferPtr rb.bufferSize rb.readIndex k := by
    have hitems := Ring.items_add rb.bufferPtr rb.bufferSize rb.readIndex k (q.length - k)
    rw [Nat.add_sub_of_le hkq, h.items] at hitems
    have := congrArg (List.take k) hitems
    rwa [List.take_left' Ring.length_items] at this
  have hwrap := wrap hout (hkq.trans hle)
  rw [htake, hdrop, hbytes]
  dsimp only
  split_ifs at hwrap ⊢ with hroom
  · refine ⟨by rw [memcpyFrom_items _ rb.bufferSize (by omega)], ?_⟩
    rw [Nat.mod_eq_of_lt (show rb.readIndex + k < 2 ^ 15 by omega)]
    exact h.drop hkq hsize hwrap.symm (by omega)
  · refine ⟨Prod.ext ?_ rfl, ?_⟩
    · have hitems := Ring.items_add rb.bufferPtr rb.bufferSize rb.readIndex
        (rb.bufferSize - rb.readIndex) (k - (rb.bufferSize - rb.readIndex))
      rw [Nat.add_sub_of_le (by omega), Nat.add_sub_of_le hout.le, Nat.mod_self] at hitems
      rw [hitems, memcpyFrom_items _ rb.bufferSize (by omega),
        memcpyFrom_items _ rb.bufferSize (by omega)]
    · -- the read index passes the end only if the write index has
      have hne : rb.readMirror ≠ rb.writeMirror := by
        intro heq
        have := h.ring.inn_lt hsize
        rw [if_pos heq] at hmirror
        omega
      refine h.drop hkq hsize hwrap.symm ?_
      rw [if_neg hne] at hmirror
      rw [if_pos (flip_eq hne)]
      omega

theorem memcpyTo_items (dst : ℕ → UInt8) {xs : List UInt8} (h : i + xs.length ≤ size) :
    Ring.items (memcpyTo dst i xs) size i xs.length = xs := by
  rw [Ring.items_straight h]
  refine List.ext_getElem (by simp) fun j hj hj' => ?_
  simp [memcpyTo, hj']

theorem memcpyTo_of_not_mem (dst : ℕ → UInt8) {xs : List UInt8} {j : ℕ}
    (h : ¬(i ≤ j ∧ j < i + xs.length)) : memcpyTo dst i xs j = dst j := by
  unfold memcpyTo
  split_ifs with hi
  · rw [List.getElem?_eq_none (by omega), Option.getD_none]
  · rfl

theorem rtRingbufferPut_holds (h : Holds rb q) (ptr : List UInt8) :
    (rtRingbufferPut rb ptr).2 = min ptr.length (rb.bufferSize - q.length)
      ∧ Holds (rtRingbufferPut rb ptr).1 (q ++ ptr.take (rb.bufferSize - q.length)) := by
  unfold rtRingbufferPut
  rw [h.spaceLen]
  obtain hzero | hpos := Nat.eq_zero_or_pos (rb.bufferSize - q.length)
  · rw [if_pos hzero, hzero, List.take_zero, List.append_nil]
    exact ⟨(min_eq_right (Nat.zero_le _)).symm, h⟩
  rw [if_neg hpos.ne']
  obtain ⟨xs, hxs⟩ : ∃ xs, xs = ptr.take (rb.bufferSize - q.length) := ⟨_, rfl⟩
  have hlen : xs.length = min ptr.length (rb.bufferSize - q.length) := by
    rw [hxs, List.length_take, min_comm]
  have hmin : (if rb.bufferSize - q.length < ptr.length then rb.bufferSize - q.length
      else ptr.length) = xs.length := by
    rw [hlen]
    split_ifs
    all_goals omega
  have hptr : ptr.take xs.length = xs :=
    (List.prefix_iff_eq_take.1 (hxs ▸ List.take_prefix _ ptr)).symm
  rw [hmin, ← hlen, ← hxs]
  have hle := h.ring.le
  have hx : q.length + xs.length ≤ rb.bufferSize := by omega
  have hsize : 0 < rb.bufferSize := by omega
  have hin := h.ring.inn_lt hsize
  have hmirror := h.mirror
  have h15 := h.size
  have hout := h.ring.out_lt hsize
  have hwrap := wrap hin (show xs.length ≤ rb.bufferSize by omega)
  dsimp only
  split_ifs at hwrap ⊢ with hroom
  · refine ⟨rfl, ?_⟩
    rw [Nat.mod_eq_of_lt (show rb.writeIndex + xs.length < 2 ^ 15 by omega), hptr]
    refine h.append hx (memcpyTo_items _ (by omega)) (fun j hj => ?_) hwrap.symm (by omega)
    refine memcpyTo_of_not_mem _ ?_
    have hj' := wrap hout (show j ≤ rb.bufferSize by omega)
    split_ifs at hj' hmirror
    all_goals omega
  · refine ⟨rfl, ?_⟩
    obtain ⟨room, hroom'⟩ : ∃ room, room = rb.bufferSize - rb.writeIndex := ⟨_, rfl⟩
    rw [← hroom'] at hwrap hroom ⊢
    have hfst : ptr.take room = xs.take room := by
      rw [← hptr, List.take_take, min_eq_left (Nat.le_of_not_lt hroom)]
    have hsnd : (ptr.drop room).take (xs.length - room) = xs.drop room := by
      rw [← List.drop_take, hptr]
    rw [hfst, hsnd]
    have hfstLen : (xs.take room).length = room := List.length_take_of_le (Nat.le_of_not_lt hroom)
    have hsndLen : (xs.drop room).length = xs.length - room := List.length_drop
    refine h.append hx ?_ (fun j hj => ?_) hwrap.symm ?_
    · have hadd := Ring.items_add (memcpyTo (memcpyTo rb.bufferPtr rb.writeIndex (xs.take room)) 0
        (xs.drop room)) rb.bufferSize rb.writeIndex room (xs.length - room)
      rw [Nat.add_sub_of_le (Nat.le_of_not_lt hroom), show rb.writeIndex + room = rb.bufferSize by omega,
        Nat.mod_self] at hadd
      have ha : Ring.items (memcpyTo rb.bufferPtr rb.writeIndex (xs.take room)) rb.bufferSize
          rb.writeIndex (xs.take room).length = xs.take room := memcpyTo_items _ (by omega)
      have hb : Ring.items (memcpyTo (memcpyTo rb.bufferPtr rb.writeIndex (xs.take room)) 0
          (xs.drop room)) rb.bufferSize 0 (xs.drop room).length = xs.drop room :=
        memcpyTo_items _ (by omega)
      have hfirst : Ring.items (memcpyTo (memcpyTo rb.bufferPtr rb.writeIndex (xs.take room)) 0
          (xs.drop room)) rb.bufferSize rb.writeIndex room
          = Ring.items (memcpyTo rb.bufferPtr rb.writeIndex (xs.take room)) rb.bufferSize
            rb.writeIndex room := by
        refine Ring.items_congr fun j hj => memcpyTo_of_not_mem _ ?_
        have hj' := wrap hin (show j ≤ rb.bufferSize by omega)
        rw [if_pos (by omega)] at hj'
        omega
      rw [hfstLen] at ha
      rw [hsndLen] at hb
      rw [hadd, hfirst, ha, hb, List.take_append_drop]
    · have hj' := wrap hout (show j ≤ rb.bufferSize by omega)
      rw [memcpyTo_of_not_mem _ ?_, memcpyTo_of_not_mem _ ?_]
      · split_ifs at hj' hmirror
        all_goals omega
      · split_ifs at hj' hmirror
        all_goals omega
    · -- the write index passes the end only if it has not done so before
      have heq : rb.readMirror = rb.writeMirror := by
        by_contra hne
        rw [if_neg hne] at hmirror
        omega
      rw [if_pos heq] at hmirror
      rw [if_neg (flip_ne heq)]
      omega

theorem rtRingbufferPut_size (rb : RtRingbuffer) (ptr : List UInt8) :
    (rtRingbufferPut rb ptr).1.bufferSize = rb.bufferSize := by
  simp only [rtRingbufferPut]
  split_ifs
  all_goals rfl

theorem rtRingbufferGet_size (rb : RtRingbuffer) (length : ℕ) :
    (rtRingbufferGet rb length).1.bufferSize = rb.bufferSize := by
  simp only [rtRingbufferGet]
  split_ifs
  all_goals rfl

theorem memcpyTo_singleton (dst : ℕ → UInt8) (i : ℕ) (ch : UInt8) :
    memcpyTo dst i [ch] = update dst i ch := by
  funext j
  by_cases hj : j = i
  · subst hj
    simp [memcpyTo]
  · rw [update_of_ne hj, memcpyTo_of_not_mem]
    simp only [List.length_singleton]
    omega

theorem memcpyTo_nil (dst : ℕ → UInt8) (i : ℕ) : memcpyTo dst i [] = dst := by
  funext j
  rw [memcpyTo_of_not_mem]
  simp only [List.length_nil]
  omega

/-- A character is put as a block of one byte is. -/
theorem rtRingbufferPutchar_eq (h : Holds rb q) (ch : UInt8) :
    rtRingbufferPutchar rb ch = rtRingbufferPut rb [ch] := by
  unfold rtRingbufferPutchar rtRingbufferPut
  rw [h.spaceLen]
  obtain hzero | hpos := Nat.eq_zero_or_pos (rb.bufferSize - q.length)
  · rw [if_pos hzero, if_pos hzero]
  have hin := h.ring.inn_lt (by omega)
  simp only [if_neg hpos.ne', List.length_singleton, if_neg (Nat.not_lt.2 hpos), List.take_succ_cons,
    List.take_zero, memcpyTo_singleton]
  by_cases hlast : rb.writeIndex = rb.bufferSize - 1
  · rw [if_pos hlast, if_neg (by omega), show rb.bufferSize - rb.writeIndex = 1 by omega]
    simp [memcpyTo_singleton, memcpyTo_nil]
  · rw [if_neg hlast, if_pos (by omega)]

theorem rtRingbufferGetchar_eq (h : Holds rb q) :
    rtRingbufferGetchar rb = rtRingbufferGet rb 1 := by
  unfold rtRingbufferGetchar rtRingbufferGet
  rw [h.dataLen]
  obtain hzero | hpos := Nat.eq_zero_or_pos q.length
  · rw [if_pos hzero, if_pos hzero]
  have hle := h.ring.le
  have hout := h.ring.out_lt (by omega)
  simp only [if_neg hpos.ne', if_neg (Nat.not_lt.2 hpos)]
  by_cases hlast : rb.readIndex = rb.bufferSize - 1
  · rw [if_pos hlast, if_neg (by omega), show rb.bufferSize - rb.readIndex = 1 by omega]
    simp [memcpyFrom]
  · rw [if_neg hlast, if_pos (by omega)]
    simp [memcpyFrom]

/-! ### Runs -/

inductive RbAct
  | put (ptr : List UInt8)
  | putchar (ch : UInt8)
  | get (length : ℕ)
  | getchar

/-- A call: what it stores for the caller, and its return value. -/
def rbExec (rb : RtRingbuffer) : RbAct → RtRingbuffer × List UInt8 × ℕ
  | .put ptr => ((rtRingbufferPut rb ptr).1, [], (rtRingbufferPut rb ptr).2)
  | .putchar ch => ((rtRingbufferPutchar rb ch).1, [], (rtRingbufferPutchar rb ch).2)
  | .get length => rtRingbufferGet rb length
  | .getchar => rtRingbufferGetchar rb

/-- The same call on a queue of at most `cap` bytes. -/
def fifoExec (cap : ℕ) (q : List UInt8) : RbAct → List UInt8 × List UInt8 × ℕ
  | .put ptr => (q ++ ptr.take (cap - q.length), [], min ptr.length (cap - q.length))
  | .putchar ch => (q ++ [ch].take (cap - q.length), [], min 1 (cap - q.length))
  | .get length => (q.drop length, q.take length, min length q.length)
  | .getchar => (q.drop 1, q.take 1, min 1 q.length)

/-- The ring buffer and the queue, side by side. -/
def rbStep (cap : ℕ) (p : RtRingbuffer × List UInt8) (a : RbAct) : RtRingbuffer × List UInt8 :=
  ((rbExec p.1 a).1, (fifoExec cap p.2 a).1)

/-- The call stores and returns what it does for the queue, and the queue is as long as
    `rt_ringbuffer_data_len` says, before the call and after it. -/
def Refines (cap : ℕ) (p : RtRingbuffer × List UInt8) (a : RbAct) : Prop :=
  (rbExec p.1 a).2 = (fifoExec cap p.2 a).2 ∧ rtRingbufferDataLen p.1 = p.2.length
    ∧ rtRingbufferDataLen (rbStep cap p a).1 = (rbStep cap p a).2.length
    ∧ (rbStep cap p a).2.length ≤ cap

theorem rbExec_holds (h : Holds rb q) (a : RbAct) :
    (rbExec rb a).2 = (fifoExec rb.bufferSize q a).2
      ∧ Holds (rbExec rb a).1 (fifoExec rb.bufferSize q a).1
      ∧ (rbExec rb a).1.bufferSize = rb.bufferSize := by
  cases a with
  | put ptr =>
    obtain ⟨hret, hholds⟩ := rtRingbufferPut_holds h ptr
    exact ⟨Prod.ext rfl hret, hholds, rtRingbufferPut_size rb ptr⟩
  | putchar ch =>
    obtain ⟨hret, hholds⟩ := rtRingbufferPut_holds h [ch]
    rw [← rtRingbufferPutchar_eq h ch] at hret hholds
    refine ⟨Prod.ext rfl hret, hholds, ?_⟩
    simp only [rbExec, rtRingbufferPutchar_eq h ch, rtRingbufferPut_size]
  | get length =>
    obtain ⟨hret, hholds⟩ := rtRingbufferGet_holds h length
    exact ⟨hret, hholds, rtRingbufferGet_size rb length⟩
  | getchar =>
    obtain ⟨hret, hholds⟩ := rtRingbufferGet_holds h 1
    rw [← rtRingbufferGetchar_eq h] at hret hholds
    refine ⟨hret, hholds, ?_⟩
    simp only [rbExec, rtRingbufferGetchar_eq h, rtRingbufferGet_size]

/-- CORRECT: in every run the ring buffer is a queue of as many bytes as its size, aligned. -/
theorem refines_of_run (pool : ℕ → UInt8) {size : ℕ} (hpos : 1 ≤ size) (hsize : size ≤ 32767)
    (acts : List RbAct) :
    Along (rbStep (rtAlignDown size)) (Refines (rtAlignDown size)) (rtRingbufferInit pool size, [])
      acts := by
  refine Along.always (I := fun p => Holds p.1 p.2 ∧ p.1.bufferSize = rtAlignDown size)
    (fun p a hp => ?_) acts ⟨init_holds pool (by omega), rfl⟩
  obtain ⟨h, hcap⟩ := hp
  obtain ⟨hret, hholds, hsize'⟩ := rbExec_holds h a
  rw [hcap] at hret hholds hsize'
  have hle := hholds.ring.le
  rw [hsize'] at hle
  exact ⟨⟨hret, h.dataLen, hholds.dataLen, hle⟩, hholds, hsize'⟩

/-- Seven bytes are aligned to four: the second block goes around the end, and is cut. -/
theorem refines_of_run_seven : Along (rbStep (rtAlignDown 7)) (Refines (rtAlignDown 7))
    (rtRingbufferInit (fun _ => 0) 7, [])
    [.put [1, 2, 3], .get 2, .put [4, 5, 6, 7], .getchar, .putchar 8] :=
  refines_of_run _ (by decide) (by decide) _

end EasyCore.RingBuffer
