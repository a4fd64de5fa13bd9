import EasyCore.Drivers.RingBuffer
import EasyCore.Kernel.Waiting

/-! A pipe (`components/drivers/src/pipe.c`) with blocking reads and writes. What a read takes may be less
    than what there is, and it wakes one writer; a write puts as much as there is room for, and wakes one
    reader. -/

namespace EasyCore.Pipe
open Function Kernel Runs Ipc Links RingBuffer

/-- The two suspend lists: `suspended_read_list`, `suspended_write_list`. -/
inductive Side
  | readers | writers
  deriving DecidableEq

def Side.other : Side → Side
  | .readers => .writers
  | .writers => .readers

/-- The threads and `struct rt_pipe_device`, with the flags `RT_PIPE_FLAG_BLOCK_RD` and
    `RT_PIPE_FLAG_BLOCK_WR`. -/
structure State (τ : Type*) where
  tasks : Tasks Side τ
  ringbuffer : RtRingbuffer

/-- `rt_pipe_init`: the size of a ring buffer is a positive 16-bit number. -/
def rtPipeInit (buf : ℕ → UInt8) (size : ℕ) : Option RtRingbuffer :=
  if 0 < size % 2 ^ 16 ∧ size % 2 ^ 16 < 2 ^ 15 then some (rtRingbufferInit buf (size % 2 ^ 16))
  else none

/-- A call with its arguments. -/
inductive Call
  | read (size : ℕ)
  | write (buffer : List UInt8)

def Call.side : Call → Side
  | .read _ => .readers
  | .write _ => .writers

/-- The length that the ring buffer is asked for: a 16-bit number. -/
def Call.length : Call → ℕ
  | .read size => size % 2 ^ 16
  | .write buffer => buffer.length % 2 ^ 16

/-- What a call returns: the number of bytes, with those that it has read. -/
structure Result where
  nbytes : ℕ
  bytes : List UInt8

variable {τ : Type*}

section Calls
variable [DecidableEq τ]

/-- `rt_pipe_read` up to its `rt_schedule`, or from there on. -/
def rtPipeRead (thread : τ) (size : ℕ) (s : State τ) : Option Result × State τ :=
  let got := rtRingbufferGet s.ringbuffer (size % 2 ^ 16)
  if got.2.2 = 0 then (none, ⟨s.tasks.ipcSuspend thread .readers .fifo, got.1⟩)
  else (some ⟨got.2.2, got.2.1⟩, ⟨s.tasks.ipcWake .writers, got.1⟩)

/-- `rt_pipe_write` up to its `rt_schedule`, or from there on. -/
def rtPipeWrite (thread : τ) (buffer : List UInt8) (s : State τ) : Option Result × State τ :=
  let put := rtRingbufferPut s.ringbuffer (buffer.take (buffer.length % 2 ^ 16))
  if put.2 = 0 then (none, ⟨s.tasks.ipcSuspend thread .writers .fifo, put.1⟩)
  else (some ⟨put.2, []⟩, ⟨s.tasks.ipcWake .readers, put.1⟩)

def Call.run (call : Call) (thread : τ) (s : State τ) : Option Result × State τ :=
  match call with
  | .read size => rtPipeRead thread size s
  | .write buffer => rtPipeWrite thread buffer s

end Calls

/-! ### Runs -/

/-- A call by a thread, or a woken thread that goes on. -/
inductive Op (τ : Type*)
  | call (t : τ) (call : Call)
  | goOn (t : τ)

/-- The state, the call that a thread is inside of, and the bytes that reads have given and that writes
    have accepted. -/
structure Run (τ : Type*) where
  os : State τ
  pc : τ → Option Call
  given : List UInt8
  accepted : List UInt8

section Exec
variable [DecidableEq τ]

/-- The call that is tried in a step. -/
def Run.attempt (r : Run τ) : Op τ → Option (τ × Call)
  | .call t call => if r.pc t = none ∧ r.os.tasks.stat t = .ready then some (t, call) else none
  | .goOn t => if r.os.tasks.stat t = .ready then (r.pc t).map fun call => (t, call) else none

/-- The bytes of a write that it has accepted, by what it returns. -/
def Call.acceptedBy (call : Call) (nbytes : ℕ) : List UInt8 :=
  match call with
  | .read _ => []
  | .write buffer => buffer.take nbytes

/-- The caller returns or waits. -/
def Run.after (r : Run τ) (t : τ) (call : Call) : Option Result × State τ → Run τ
  | (none, os) => { r with os := os, pc := update r.pc t (some call) }
  | (some res, os) =>
    { os := os
      pc := update r.pc t none
      given := r.given ++ res.bytes
      accepted := r.accepted ++ call.acceptedBy res.nbytes }

/-- What is returned in a step. -/
def Run.answer (r : Run τ) (op : Op τ) : Option (Call × Result) :=
  (r.attempt op).bind fun (t, call) => (call.run t r.os).1.map fun res => (call, res)

def pipeStep (r : Run τ) (op : Op τ) : Run τ :=
  match r.attempt op with
  | some (t, call) => r.after t call (call.run t r.os)
  | none => r

/-! ### A pipe is a stream -/

/-- What a thread waits for: the bytes in the pipe, or the room in it. -/
def avail (rb : RtRingbuffer) : Side → ℕ
  | .readers => rtRingbufferDataLen rb
  | .writers => rtRingbufferSpaceLen rb

/-- The list that the call of a thread waits on. -/
def Run.side (r : Run τ) : τ → Option Side := Option.map Call.side ∘ r.pc

/-- A thread that has been woken and has not gone on yet. -/
def Woken (tasks : Tasks Side τ) (side : τ → Option Side) (k : Side) (t : τ) : Prop :=
  side t = some k ∧ t ∉ tasks.suspended k

/-- Nobody stays suspended while there is what it waits for: another thread of its list has been woken
    and will look. -/
def Alive (tasks : Tasks Side τ) (side : τ → Option Side) (n : ℕ) (k : Side) : Prop :=
  tasks.suspended k ≠ [] → 0 < n → ∃ t, Woken tasks side k t

/-- The bytes in the pipe. -/
def State.contents (s : State τ) : List UInt8 :=
  Ring.items s.ringbuffer.bufferPtr s.ringbuffer.bufferSize s.ringbuffer.readIndex
    (rtRingbufferDataLen s.ringbuffer)

/-- The bytes that reads have given are the first of those that writes have accepted, and the others are
    in the pipe; a call moves as many bytes as it returns; and no wake-up is lost. -/
structure Behaves (r : Run τ) (op : Op τ) : Prop where
  stream : (pipeStep r op).given ++ (pipeStep r op).os.contents = (pipeStep r op).accepted
  isPrefix : (pipeStep r op).given <+: (pipeStep r op).accepted
  read : ∀ size res, r.answer op = some (.read size, res) → res.nbytes ≤ size ∧
    res.bytes.length = res.nbytes ∧ (pipeStep r op).given = r.given ++ res.bytes ∧
    (pipeStep r op).accepted = r.accepted
  write : ∀ buffer res, r.answer op = some (.write buffer, res) → res.nbytes ≤ buffer.length ∧
    (pipeStep r op).given = r.given ∧ (pipeStep r op).accepted = r.accepted ++ buffer.take res.nbytes
  waits : r.answer op = none →
    (pipeStep r op).given = r.given ∧ (pipeStep r op).accepted = r.accepted
  alive : ∀ k, Alive (pipeStep r op).os.tasks (pipeStep r op).side
    (avail (pipeStep r op).os.ringbuffer k) k

/-- A call leaves nothing that somebody else waits for, and does not wait for what there is, unless
    another thread of its list has been woken and will look. -/
def Covered (r : Run τ) (op : Op τ) : Prop :=
  ∀ t call, r.attempt op = some (t, call) →
    r.os.tasks.suspended call.side ≠ [] ∨ call.length = 0 →
    call.length < avail r.os.ringbuffer call.side →
    ∃ u, u ≠ t ∧ Woken r.os.tasks r.side call.side u

end Exec

section Wake
variable [DecidableEq τ] {tasks : Tasks Side τ} {side : τ → Option Side} {t u : τ} {k k' : Side} {n : ℕ}

theorem waiting_ipcWake (w : Waiting tasks side) (k : Side) : Waiting (tasks.ipcWake k) side := by
  unfold Tasks.ipcWake Tasks.ipcResume
  cases hl : tasks.suspended k with
  | nil => exact w
  | cons u l => exact w.resume (k := k) (by rw [hl]; exact List.mem_cons_self)

/-- The first thread of a list is woken; the other list stays as it is. -/
theorem ipcWake_other (w : Waiting tasks side) (hk : k' ≠ k) :
    (tasks.ipcWake k).suspended k' = tasks.suspended k' := by
  unfold Tasks.ipcWake Tasks.ipcResume
  cases hl : tasks.suspended k with
  | nil => rfl
  | cons u l =>
    have hu : u ∈ tasks.suspended k := by
      rw [hl]
      exact List.mem_cons_self
    have hfields := (resume_fields (w.mem hu).2).1
    rw [w.without_eq_update hu] at hfields
    exact (congrFun hfields k').trans (update_of_ne hk _ _)

theorem alive_ipcWake (w : Waiting tasks side) (k : Side) (n : ℕ) :
    Alive (tasks.ipcWake k) side n k := by
  intro hne hn
  unfold Tasks.ipcWake Tasks.ipcResume at hne ⊢
  cases hl : tasks.suspended k with
  | nil =>
    rw [hl] at hne
    exact absurd hl hne
  | cons u l =>
    have hu : u ∈ tasks.suspended k := by
      rw [hl]
      exact List.mem_cons_self
    have hfields := (resume_fields (w.mem hu).2).1
    refine ⟨u, (w.mem hu).1, ?_⟩
    change u ∉ (tasks.resume u).suspended k
    rw [hfields]
    exact not_mem_without (w.nodup k)

theorem woken_leave : Woken tasks (update side t none) k u ↔ u ≠ t ∧ Woken tasks side k u := by
  unfold Woken
  obtain rfl | hu := eq_or_ne u t
  · simp
  · rw [update_of_ne hu]
    exact (and_iff_right hu).symm

theorem woken_congr (h : (tasks.ipcWake k').suspended k = tasks.suspended k) :
    Woken (tasks.ipcWake k') side k u ↔ Woken tasks side k u := by
  rw [Woken, Woken, h]

/-- A call has moved bytes: it leaves `n` for its own list, and wakes a thread of the other. -/
theorem alive_moved (w : Waiting tasks side) (hr : tasks.stat t = .ready) (hk : k' ≠ k) (n n' : ℕ) :
    (Alive (tasks.ipcWake k') (update side t none) n k
      ∧ Alive (tasks.ipcWake k') (update side t none) n' k')
    ↔ (tasks.suspended k ≠ [] → 0 < n → ∃ u, u ≠ t ∧ Woken tasks side k u) := by
  have hsame := ipcWake_other w hk.symm
  rw [and_iff_left (alive_ipcWake (w.leave hr) k' n'), Alive, hsame]
  simp only [woken_congr hsame, woken_leave]

/-- A call has moved nothing and goes to sleep. -/
theorem alive_slept (hr : tasks.stat t = .ready)
    (hside : side t = none ∨ side t = some k) (hk : k' ≠ k) {n' : ℕ} (ha : Alive tasks side n' k')
    (n : ℕ) :
    (Alive (tasks.ipcSuspend t k .fifo) (update side t (some k)) n k
      ∧ Alive (tasks.ipcSuspend t k .fifo) (update side t (some k)) n' k')
    ↔ (0 < n → ∃ u, u ≠ t ∧ Woken tasks side k u) := by
  have hsusp := (ipcSuspend_fields (k := k) hr .fifo).1
  have hown : (tasks.ipcSuspend t k .fifo).suspended k = tasks.suspended k ++ [t] := by
    rw [hsusp, update_self]
    rfl
  have hother : (tasks.ipcSuspend t k .fifo).suspended k' = tasks.suspended k' := by
    rw [hsusp, update_of_ne hk]
  have hwoken : ∀ u, Woken (tasks.ipcSuspend t k .fifo) (update side t (some k)) k u
      ↔ u ≠ t ∧ Woken tasks side k u := by
    intro u
    unfold Woken
    rw [hown]
    obtain rfl | hu := eq_or_ne u t
    · simp
    · simp [hu]
  have halive : Alive (tasks.ipcSuspend t k .fifo) (update side t (some k)) n' k' := by
    intro hne hn
    rw [hother] at hne
    obtain ⟨u, hu, hout⟩ := ha hne hn
    have hut : u ≠ t := by
      rintro rfl
      obtain hnone | hsome := hside
      · exact absurd (hnone.symm.trans hu) (by simp)
      · exact hk (Option.some.inj (hu.symm.trans hsome))
    exact ⟨u, (update_of_ne hut _ _).trans hu, by rwa [hother]⟩
  rw [and_iff_left halive, Alive, hown]
  simp only [hwoken]
  exact forall_prop_of_true (by simp)

end Wake

section Steps
variable {s : State τ} {r : Run τ} {t : τ} {call : Call} {op : Op τ} {q : List UInt8}

theorem contents_eq (h : Holds s.ringbuffer q) : s.contents = q := by
  rw [State.contents, h.dataLen, h.items]

theorem other_ne (k : Side) : k.other ≠ k := by
  cases k with
  | readers => exact Side.noConfusion
  | writers => exact Side.noConfusion

theorem forall_side {P : Side → Prop} (k : Side) : (∀ k, P k) ↔ P k ∧ P k.other := by
  refine ⟨fun h => ⟨h k, h k.other⟩, fun h k' => ?_⟩
  cases k with
  | readers =>
    cases k' with
    | readers => exact h.1
    | writers => exact h.2
  | writers =>
    cases k' with
    | readers => exact h.2
    | writers => exact h.1

variable [DecidableEq τ]

/-- What a call does: with nothing to move it goes to sleep, and with something it moves as much as it
    can and wakes a thread of the other list. -/
inductive Ran (call : Call) (t : τ) (s : State τ) (q : List UInt8) : Option Result × State τ → Prop
  | slept {rb : RtRingbuffer} (hzero : min call.length (avail s.ringbuffer call.side) = 0)
    (hholds : Holds rb q) (hsame : ∀ k, avail rb k = avail s.ringbuffer k) :
    Ran call t s q (none, ⟨s.tasks.ipcSuspend t call.side .fifo, rb⟩)
  | moved {rb : RtRingbuffer} {res : Result} {q' : List UInt8} (hpos : 0 < res.nbytes)
    (hn : res.nbytes = min call.length (avail s.ringbuffer call.side)) (hholds : Holds rb q')
    (hleft : avail rb call.side = avail s.ringbuffer call.side - res.nbytes)
    (hbytes : res.bytes ++ q' = q ++ call.acceptedBy res.nbytes)
    (hside : call.side = .readers ∧ res.bytes.length = res.nbytes ∨
      call.side = .writers ∧ res.bytes = []) :
    Ran call t s q (some res, ⟨s.tasks.ipcWake call.side.other, rb⟩)

theorem avail_eq {rb rb' : RtRingbuffer} (h : Holds rb q) (h' : Holds rb' q)
    (hsize : rb'.bufferSize = rb.bufferSize) (k : Side) : avail rb' k = avail rb k := by
  cases k with
  | readers => exact h'.dataLen.trans h.dataLen.symm
  | writers => exact h'.spaceLen.trans (hsize ▸ h.spaceLen.symm)

theorem read_ran (h : Holds s.ringbuffer q) (size : ℕ) (t : τ) :
    Ran (.read size) t s q (rtPipeRead t size s) := by
  obtain ⟨hret, hholds⟩ := rtRingbufferGet_holds h (size % 2 ^ 16)
  have hsize := rtRingbufferGet_size s.ringbuffer (size % 2 ^ 16)
  obtain ⟨hbytes, hn⟩ := Prod.ext_iff.1 hret
  have hmin : min (size % 2 ^ 16) (avail s.ringbuffer .readers) = min (size % 2 ^ 16) q.length :=
    congrArg (min _) h.dataLen
  rw [rtPipeRead, hbytes, hn]
  dsimp only
  obtain hzero | hpos := Nat.eq_zero_or_pos (min (size % 2 ^ 16) q.length)
  · rw [if_pos hzero]
    have hrest : q.drop (size % 2 ^ 16) = q := by
      obtain hlen | hlen := Nat.min_eq_zero_iff.1 hzero
      · rw [hlen, List.drop_zero]
      · rw [List.length_eq_zero_iff.1 hlen, List.drop_nil]
    rw [hrest] at hholds
    exact Ran.slept (hmin.trans hzero) hholds (avail_eq h hholds hsize)
  · rw [if_neg hpos.ne']
    have hleft : rtRingbufferDataLen (rtRingbufferGet s.ringbuffer (size % 2 ^ 16)).1
        = rtRingbufferDataLen s.ringbuffer - min (size % 2 ^ 16) q.length := by
      rw [hholds.dataLen, h.dataLen, List.length_drop]
      omega
    refine Ran.moved hpos hmin.symm hholds hleft ?_ (Or.inl ⟨rfl, ?_⟩)
    · rw [List.take_append_drop, Call.acceptedBy, List.append_nil]
    · rw [List.length_take]

theorem write_ran (h : Holds s.ringbuffer q) (buffer : List UInt8) (t : τ) :
    Ran (.write buffer) t s q (rtPipeWrite t buffer s) := by
  obtain ⟨hret, hholds⟩ := rtRingbufferPut_holds h (buffer.take (buffer.length % 2 ^ 16))
  have hsize := rtRingbufferPut_size s.ringbuffer (buffer.take (buffer.length % 2 ^ 16))
  have hlen : (buffer.take (buffer.length % 2 ^ 16)).length = buffer.length % 2 ^ 16 :=
    List.length_take_of_le (Nat.mod_le _ _)
  have hmin : min (buffer.length % 2 ^ 16) (avail s.ringbuffer .writers)
      = min (buffer.length % 2 ^ 16) (s.ringbuffer.bufferSize - q.length) :=
    congrArg (min _) h.spaceLen
  rw [hlen] at hret
  rw [List.take_take, min_comm] at hholds
  rw [rtPipeWrite, hret]
  obtain hzero | hpos := Nat.eq_zero_or_pos
    (min (buffer.length % 2 ^ 16) (s.ringbuffer.bufferSize - q.length))
  · rw [if_pos hzero]
    rw [hzero, List.take_zero, List.append_nil] at hholds
    exact Ran.slept (hmin.trans hzero) hholds (avail_eq h hholds hsize)
  · rw [if_neg hpos.ne']
    have hleft : rtRingbufferSpaceLen
          (rtRingbufferPut s.ringbuffer (buffer.take (buffer.length % 2 ^ 16))).1
        = rtRingbufferSpaceLen s.ringbuffer
          - min (buffer.length % 2 ^ 16) (s.ringbuffer.bufferSize - q.length) := by
      rw [hholds.spaceLen, h.spaceLen, hsize, List.length_append, List.length_take]
      have hmod := Nat.mod_le buffer.length (2 ^ 16)
      omega
    exact Ran.moved hpos hmin.symm hholds hleft rfl (Or.inr ⟨rfl, rfl⟩)

theorem run_ran (h : Holds s.ringbuffer q) (call : Call) (t : τ) : Ran call t s q (call.run t s) := by
  cases call with
  | read size => exact read_ran h size t
  | write buffer => exact write_ran h buffer t

/-- The pipe holds the bytes `q`, those that have been accepted and not yet given. -/
structure Inv (r : Run τ) (q : List UInt8) : Prop where
  waiting : Waiting r.os.tasks r.side
  holds : Holds r.os.ringbuffer q
  stream : r.given ++ q = r.accepted

omit [DecidableEq τ] in
theorem attempt_spec (h : r.attempt op = some (t, call)) :
    r.os.tasks.stat t = .ready ∧ (r.side t = none ∨ r.side t = some call.side) := by
  cases op with
  | call u c =>
    obtain ⟨⟨hpc, hr⟩, h⟩ := Option.ite_none_right_eq_some.1 h
    obtain ⟨rfl, rfl⟩ := Prod.mk.inj (Option.some.inj h)
    exact ⟨hr, Or.inl (by simp [Run.side, hpc])⟩
  | goOn u =>
    obtain ⟨hr, h⟩ := Option.ite_none_right_eq_some.1 h
    obtain ⟨c, hpc, h⟩ := Option.map_eq_some_iff.1 h
    obtain ⟨rfl, rfl⟩ := Prod.mk.inj h
    exact ⟨hr, Or.inr (by simp [Run.side, hpc])⟩

/-- Nobody is left behind after a call if it is covered, and only then. -/
def AliveAfter (r : Run τ) (op : Op τ) : Prop := ∀ k, Alive (pipeStep r op).os.tasks
  (pipeStep r op).side (avail (pipeStep r op).os.ringbuffer k) k

theorem attempt_step (i : Inv r q) (ha : ∀ k, Alive r.os.tasks r.side (avail r.os.ringbuffer k) k)
    (h : r.attempt op = some (t, call)) :
    (∃ q', Inv (pipeStep r op) q') ∧ (AliveAfter r op ↔ Covered r op) := by
  obtain ⟨hr, hside⟩ := attempt_spec h
  have hcovered : Covered r op ↔ (r.os.tasks.suspended call.side ≠ [] ∨ call.length = 0 →
      call.length < avail r.os.ringbuffer call.side →
      ∃ u, u ≠ t ∧ Woken r.os.tasks r.side call.side u) := by
    refine ⟨fun hc => hc t call h, fun hc t' call' h' => ?_⟩
    obtain ⟨rfl, rfl⟩ := Prod.mk.inj (Option.some.inj (h.symm.trans h'))
    exact hc
  have hran := run_ran i.holds call t
  have hstep : pipeStep r op = r.after t call (call.run t r.os) := by rw [pipeStep, h]
  rw [AliveAfter, hstep, hcovered, forall_side call.side]
  generalize call.run t r.os = out at hran
  cases hran with
  | @slept rb hzero hholds hsame =>
    have hupdate : Run.side (r.after t call (none, ⟨r.os.tasks.ipcSuspend t call.side .fifo, rb⟩))
        = update r.side t (some call.side) := comp_update _ _ _ _
    have hfields := ipcSuspend_fields (k := call.side) hr .fifo
    refine ⟨⟨q, ?_, hholds, i.stream⟩, ?_⟩
    · rw [hupdate]
      exact i.waiting.block hr hfields.1 (insertWaiter_perm _ _ _ _) hfields.2.1
    · rw [hupdate]
      dsimp only [Run.after]
      rw [hsame, hsame, alive_slept hr hside (other_ne _) (ha _)]
      refine ⟨fun hn _ hlt => hn (by omega), fun hn hpos => hn (Or.inr ?_) ?_⟩
      all_goals omega
  | @moved rb res q' hpos hn hholds hleft hbytes hkind =>
    have hupdate : Run.side (r.after t call (some res, ⟨r.os.tasks.ipcWake call.side.other, rb⟩))
        = update r.side t none := comp_update _ _ _ _
    refine ⟨⟨q', ?_, hholds, ?_⟩, ?_⟩
    · rw [hupdate]
      exact waiting_ipcWake (i.waiting.leave hr) _
    · dsimp only [Run.after]
      rw [List.append_assoc, hbytes, ← List.append_assoc, i.stream]
    · rw [hupdate]
      dsimp only [Run.after]
      rw [alive_moved i.waiting hr (other_ne _), hleft]
      constructor
      · rintro hc (hne | hlen) hlt
        · exact hc hne (by omega)
        · omega
      · exact fun hc hne hlt => hc (Or.inl hne) (by omega)

theorem no_attempt_step (h : r.attempt op = none) : pipeStep r op = r := by rw [pipeStep, h]

/-- What a call gives and accepts. -/
theorem answer_spec (i : Inv r q) (op : Op τ) :
    (r.answer op = none ∧ (pipeStep r op).given = r.given ∧ (pipeStep r op).accepted = r.accepted) ∨
    ∃ call res, r.answer op = some (call, res) ∧ res.nbytes ≤ call.length ∧
      (call.side = .readers ∧ res.bytes.length = res.nbytes ∨ call.side = .writers ∧ res.bytes = []) ∧
      (pipeStep r op).given = r.given ++ res.bytes ∧
      (pipeStep r op).accepted = r.accepted ++ call.acceptedBy res.nbytes := by
  cases h : r.attempt op with
  | none =>
    rw [no_attempt_step h, Run.answer, h]
    exact Or.inl ⟨rfl, rfl, rfl⟩
  | some tc =>
    obtain ⟨t, call⟩ := tc
    have hran := run_ran i.holds call t
    have hstep : pipeStep r op = r.after t call (call.run t r.os) := by rw [pipeStep, h]
    have hanswer : r.answer op = (call.run t r.os).1.map fun res => (call, res) := by
      rw [Run.answer, h]
      rfl
    rw [hstep, hanswer]
    generalize call.run t r.os = out at hran
    cases hran with
    | slept hzero hholds hsame => exact Or.inl ⟨rfl, rfl, rfl⟩
    | @moved rb res q' hpos hn hholds hleft hbytes hkind =>
      exact Or.inr ⟨call, res, rfl, hn ▸ min_le_left _ _, hkind, rfl, rfl⟩

/-- Apart from the wake-ups every step does what it should. -/
theorem behaves_iff (i : Inv r q) (ha : ∀ k, Alive r.os.tasks r.side (avail r.os.ringbuffer k) k)
    (op : Op τ) : (∃ q', Inv (pipeStep r op) q') ∧ (Behaves r op ↔ Covered r op) := by
  have hstep : (∃ q', Inv (pipeStep r op) q') ∧ (AliveAfter r op ↔ Covered r op) := by
    cases h : r.attempt op with
    | none =>
      rw [AliveAfter, no_attempt_step h]
      refine ⟨⟨q, i⟩, fun _ t call h' => ?_, fun _ => ha⟩
      exact absurd (h.symm.trans h') (Option.some_ne_none _).symm
    | some tc => exact attempt_step i ha h
  obtain ⟨⟨q', i'⟩, halive⟩ := hstep
  refine ⟨⟨q', i'⟩, fun hb => halive.1 hb.alive, fun hc => ?_⟩
  have hstream : (pipeStep r op).given ++ (pipeStep r op).os.contents = (pipeStep r op).accepted := by
    rw [contents_eq i'.holds, i'.stream]
  have hspec := answer_spec i op
  refine ⟨hstream, ⟨_, hstream⟩, fun size res hres => ?_, fun buffer res hres => ?_, fun hnone => ?_,
    halive.2 hc⟩
  · obtain ⟨hnone, -⟩ | ⟨call, res', hsome, hle, hkind, hgiven, haccepted⟩ := hspec
    · exact absurd (hnone.symm.trans hres) (Option.some_ne_none _).symm
    · obtain ⟨rfl, rfl⟩ := Prod.mk.inj (Option.some.inj (hsome.symm.trans hres))
      obtain ⟨-, hlen⟩ | ⟨hside, -⟩ := hkind
      · exact ⟨hle.trans (Nat.mod_le _ _), hlen, hgiven, haccepted.trans (List.append_nil _)⟩
      · exact Side.noConfusion hside
  · obtain ⟨hnone, -⟩ | ⟨call, res', hsome, hle, hkind, hgiven, haccepted⟩ := hspec
    · exact absurd (hnone.symm.trans hres) (Option.some_ne_none _).symm
    · obtain ⟨rfl, rfl⟩ := Prod.mk.inj (Option.some.inj (hsome.symm.trans hres))
      obtain ⟨hside, -⟩ | ⟨-, hnil⟩ := hkind
      · exact Side.noConfusion hside
      · rw [hnil, List.append_nil] at hgiven
        exact ⟨hle.trans (Nat.mod_le _ _), hgiven, haccepted⟩
  · obtain ⟨-, hsame⟩ | ⟨call, res', hsome, -⟩ := hspec
    · exact hsame
    · exact absurd (hnone.symm.trans hsome) (Option.some_ne_none _).symm

/-- An empty pipe, and threads that are in no call. -/
structure Run.Init (r : Run τ) : Prop where
  ringbuffer : ∃ buf size, rtPipeInit buf size = some r.os.ringbuffer
  suspended : ∀ k, r.os.tasks.suspended k = []
  pc : ∀ t, r.pc t = none
  given : r.given = []
  accepted : r.accepted = []

omit [DecidableEq τ] in
theorem init_inv (h : r.Init) : Inv r [] := by
  obtain ⟨buf, size, hinit⟩ := h.ringbuffer
  obtain ⟨⟨-, hlt⟩, hinit⟩ := Option.ite_none_right_eq_some.1 hinit
  refine ⟨Waiting.empty h.suspended fun t => ?_, ?_, ?_⟩
  · rw [Run.side, comp_apply, h.pc, Option.map_none]
  · exact Option.some.inj hinit ▸ init_holds buf hlt
  · rw [h.given, h.accepted]
    rfl

/-- CORRECT: a pipe is a stream in which no wake-up is lost exactly if each call is covered. -/
theorem behaves_of_covered (hr : r.Init) (ops : List (Op τ)) :
    Along pipeStep Behaves r ops ↔ Along pipeStep Covered r ops := by
  refine Along.iff (I := fun r => (∃ q, Inv r q)
    ∧ ∀ k, Alive r.os.tasks r.side (avail r.os.ringbuffer k) k)
    (fun r op h => ?_) (fun r op h hc => ?_) ops ?_
  · obtain ⟨⟨q, i⟩, ha⟩ := h
    exact (behaves_iff i ha op).2
  · obtain ⟨⟨q, i⟩, ha⟩ := h
    exact ⟨(behaves_iff i ha op).1, ((behaves_iff i ha op).2.2 hc).alive⟩
  · refine ⟨⟨[], init_inv hr⟩, fun k hne => ?_⟩
    exact absurd (hr.suspended k) hne

/-- Threads that are ready, and a pipe for four bytes. -/
def start : Run ℕ where
  os := { tasks := ⟨fun t => ⟨.ready, t, t, 0, 0, 0, 0, false, false, true⟩, fun _ => []⟩
          ringbuffer := rtRingbufferInit (fun _ => 0) 4 }
  pc _ := none
  given := []
  accepted := []

theorem start_init : start.Init :=
  ⟨⟨fun _ => 0, 4, rfl⟩, fun _ => rfl, fun _ => rfl, rfl, rfl⟩

/-- A call that leaves nothing somebody else waits for, and does not wait for what there is. -/
def NothingLeft (r : Run τ) (op : Op τ) : Prop :=
  ∀ tc ∈ r.attempt op, ¬((r.os.tasks.suspended tc.2.side ≠ [] ∨ tc.2.length = 0) ∧
    tc.2.length < avail r.os.ringbuffer tc.2.side)

omit [DecidableEq τ] in
theorem NothingLeft.covered (h : NothingLeft r op) : Covered r op :=
  fun t call hattempt hne hlt => absurd ⟨hne, hlt⟩ (h (t, call) hattempt)

instance (r : Run τ) (op : Op τ) : Decidable (NothingLeft r op) := by
  unfold NothingLeft
  infer_instance

/-- A reader waits for a writer, which puts more than fits; the reader takes all, and the writer the
    room that there is then. -/
theorem behaves_of_covered_four : Along pipeStep Behaves start
    [.call 0 (.read 9), .call 1 (.write [1, 2, 3, 4, 5]), .call 1 (.write [5]), .goOn 0, .goOn 1] := by
  refine (behaves_of_covered start_init _).2 ?_
  exact Along.imp (I := fun _ => True) (fun _ _ _ h => NothingLeft.covered h) (fun _ _ _ _ => trivial)
    _ trivial (by decide +kernel)

/-- Two readers wait; the one that is woken leaves bytes, and nobody wakes the other. -/
theorem not_behaves_of_two_readers : ¬ Along pipeStep Behaves start
    [.call 0 (.read 1), .call 1 (.read 1), .call 2 (.write [1, 2, 3]), .goOn 0] := by
  rintro ⟨-, -, -, h, -⟩
  obtain ⟨u, hu, hout⟩ := h.alive .readers (by decide +kernel) (by decide +kernel)
  obtain ⟨call, hcall, -⟩ := Option.map_eq_some_iff.1 hu
  change update (update (update (update (fun _ => none) 0 (some (.read 1))) 1 (some (.read 1)))
    2 none) 0 none u = some call at hcall
  obtain rfl | hone := eq_or_ne u 1
  · exact hout (by decide +kernel)
  · obtain rfl | hzero := eq_or_ne u 0
    · exact absurd hcall (by simp)
    · rw [update_of_ne hzero, update_apply, update_of_ne hone, update_of_ne hzero, ite_self] at hcall
      exact absurd hcall (Option.some_ne_none _).symm

end Steps

end EasyCore.Pipe
