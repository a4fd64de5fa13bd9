import EasyCore.Kernel.Waiting
import EasyCore.Lib.Chain
import EasyCore.Lib.Fifo
import EasyCore.Lib.Runs

/-! Message queues (`src/ipc.c`, `rt_mq_*`).

    The pool is cut into slots, each with a pointer and the room for a message; the slots are on
    the free list, on the list of the messages, or taken out by a call that is copying. A call
    disables interrupts twice, and copies in between: it is several steps, and between any two of
    them other threads and interrupt handlers may go through steps of their own calls. -/

namespace EasyCore.Ipc.MsgQueue
open Function EasyCore.Kernel EasyCore.Runs EasyCore.Fifo EasyCore.Chain

abbrev Byte := BitVec 8

/-- `struct rt_messagequeue` and its pool: slots are numbered, `next` is the pointer of a slot and
    `body` the room behind it. The numbers are 16 bits wide. -/
structure RtMq where
  next : ℕ → Option ℕ
  body : ℕ → List Byte
  msgSize : ℕ
  maxMsgs : ℕ
  entry : ℕ
  head : Option ℕ
  tail : Option ℕ
  free : Option ℕ
  flag : IpcFlag

/-- The threads, the queues, and the tick counter. -/
structure State (κ τ : Type*) where
  tasks : Tasks κ τ
  mq : κ → RtMq
  tick : ℕ

/-- `RT_ALIGN(msg_size, RT_ALIGN_SIZE)` as stored in 16 bits. -/
def alignSize (msgSize : ℕ) : ℕ := (msgSize + 3) / 4 * 4 % 65536

/-- `rt_mq_init` and `rt_mq_create`, on a pool with the contents `body`. -/
def rtMqInit (body : ℕ → List Byte) (msgSize poolSize : ℕ) (flag : IpcFlag) : RtMq :=
  let maxMsgs := poolSize / (alignSize msgSize + 4) % 65536
  (List.range maxMsgs).foldl
    (fun mq i => { mq with next := update mq.next i mq.free, free := some i })
    { next := fun _ => none
      body := body
      msgSize := alignSize msgSize
      maxMsgs := maxMsgs
      entry := 0
      head := none
      tail := none
      free := none
      flag := flag }

/-- Where a call is: `rt_mq_send` or `rt_mq_urgent` with its slot, before and after it has copied
    the message; `rt_mq_recv` waiting, and with its slot before and after it has copied. -/
inductive Phase (κ : Type*)
  | sendTaken (k : κ) (urgent : Bool) (data : List Byte) (slot : ℕ)
  | sendCopied (k : κ) (urgent : Bool) (data : List Byte) (slot : ℕ)
  | recvWaits (k : κ) (size : ℕ) (timeout : ℤ) (tickDelta : ℕ)
  | recvTaken (k : κ) (size : ℕ) (slot : ℕ)
  | recvCopied (k : κ) (size : ℕ) (bytes : List Byte) (slot : ℕ)

/-- How far a call got: it returns, a receive with the bytes copied, or it is in a phase. -/
inductive Outcome (κ : Type*)
  | done (e : ℤ) (bytes : Option (List Byte))
  | goes (phase : Phase κ)

variable {κ τ ι : Type*}

section Calls
variable [DecidableEq κ] [DecidableEq τ]

def State.setTasks (s : State κ τ) (tasks : Tasks κ τ) : State κ τ := { s with tasks := tasks }

def State.setMq (s : State κ τ) (k : κ) (mq : RtMq) : State κ τ :=
  { s with mq := update s.mq k mq }

/-- The first part of `rt_mq_send` and `rt_mq_urgent`: take a slot off the free list. -/
def mqSendBegin (k : κ) (urgent : Bool) (data : List Byte) (s : State κ τ) :
    Option (Outcome κ × State κ τ) :=
  let mq := s.mq k
  if data.length = 0 then none
  else if data.length > mq.msgSize then some (.done (-rtError) none, s)
  else match mq.free with
    | none => some (.done (-rtEfull) none, s)
    | some msg => some (.goes (.sendTaken k urgent data msg),
        s.setMq k { mq with free := mq.next msg })

/-- The message is copied, with interrupts enabled; `rt_mq_send` clears the pointer before. -/
def mqSendCopy (k : κ) (urgent : Bool) (data : List Byte) (msg : ℕ) (s : State κ τ) : State κ τ :=
  let mq := s.mq k
  s.setMq k { mq with
    next := if urgent then mq.next else update mq.next msg none
    body := update mq.body msg (data ++ (mq.body msg).drop data.length) }

/-- The second part of `rt_mq_send`: the message becomes the last one. -/
def mqLinkTail (msg : ℕ) (mq : RtMq) : RtMq :=
  { mq with
    next := mq.tail.elim mq.next fun tail => update mq.next tail (some msg)
    tail := some msg
    head := if mq.head = none then some msg else mq.head
    entry := (mq.entry + 1) % 65536 }

/-- The second part of `rt_mq_urgent`: the message becomes the first one. -/
def mqLinkHead (msg : ℕ) (mq : RtMq) : RtMq :=
  { mq with
    next := update mq.next msg mq.head
    head := some msg
    tail := if mq.tail = none then some msg else mq.tail
    entry := (mq.entry + 1) % 65536 }

/-- The second part of both, with a receiver woken. -/
def mqSendLink (k : κ) (urgent : Bool) (msg : ℕ) (s : State κ τ) : State κ τ :=
  (s.setMq k (if urgent then mqLinkHead msg (s.mq k) else mqLinkTail msg (s.mq k))).setTasks
    (s.tasks.ipcWake k)

/-- Take the first message off the list. -/
def mqUnlink (msg : ℕ) (mq : RtMq) : RtMq :=
  { mq with
    head := mq.next msg
    tail := if mq.tail = some msg then none else mq.tail }

/-- Put a slot on the free list. -/
def mqFree (msg : ℕ) (mq : RtMq) : RtMq :=
  { mq with next := update mq.next msg mq.free, free := some msg }

/-- The loop of `rt_mq_recv` up to its `rt_schedule`, and the removal of the first message. The
    caller is a thread or, without one, an interrupt handler, which cannot wait. -/
def mqRecvLoop (c : Option τ) (k : κ) (size : ℕ) (timeout : ℤ) (tickDelta : ℕ) (s : State κ τ) :
    Option (Outcome κ × State κ τ) :=
  let mq := s.mq k
  if mq.entry = 0 then
    c.map fun thread =>
      if timeout = 0 then
        (.done (-rtEtimeout) none, s.setTasks (s.tasks.setError thread (-rtEtimeout)))
      else (.goes (.recvWaits k size timeout (if timeout > 0 then s.tick else tickDelta)),
        s.setTasks ((s.tasks.setError thread rtEok).sleep thread k mq.flag timeout))
  else mq.head.map fun msg => (.goes (.recvTaken k size msg),
    s.setMq k { mqUnlink msg mq with entry := (mq.entry + 65535) % 65536 })

/-- `rt_mq_recv` up to its `rt_schedule`. -/
def mqRecvBegin (c : Option τ) (k : κ) (size : ℕ) (timeout : ℤ) (s : State κ τ) :
    Option (Outcome κ × State κ τ) :=
  if size = 0 then none
  else if (s.mq k).entry = 0 ∧ timeout = 0 then some (.done (-rtEtimeout) none, s)
  else mqRecvLoop c k size timeout 0 s

/-- The bytes that `rt_mq_recv` copies, with interrupts enabled. -/
def mqRecvCopy (k : κ) (size msg : ℕ) (s : State κ τ) : List Byte :=
  ((s.mq k).body msg).take (if size > (s.mq k).msgSize then (s.mq k).msgSize else size)

/-- A call goes on from the phase it is in. -/
def mqGoOn (c : Option τ) (s : State κ τ) : Phase κ → Option (Outcome κ × State κ τ)
  | .sendTaken k urgent data msg =>
    some (.goes (.sendCopied k urgent data msg), mqSendCopy k urgent data msg s)
  | .sendCopied k urgent _ msg => some (.done rtEok none, mqSendLink k urgent msg s)
  | .recvWaits k size timeout tickDelta => c.bind fun thread =>
    if s.tasks.error thread ≠ rtEok then some (.done (s.tasks.error thread) none, s)
    else
      let (timeout, tickDelta) := adjust timeout tickDelta s.tick
      mqRecvLoop c k size timeout tickDelta s
  | .recvTaken k size msg => some (.goes (.recvCopied k size (mqRecvCopy k size msg s) msg), s)
  | .recvCopied k _ bytes msg => some (.done rtEok (some bytes), s.setMq k (mqFree msg (s.mq k)))

/-- The loop of `rt_mq_control` that releases all messages. -/
def mqReleaseAll : ℕ → RtMq → Option RtMq
  | 0, _ => none
  | fuel + 1, mq => match mq.head with
    | none => some mq
    | some msg => mqReleaseAll fuel (mqFree msg (mqUnlink msg mq))

/-- `rt_mq_control` with `RT_IPC_CMD_RESET`. -/
def rtMqReset (k : κ) (s : State κ τ) : Option (State κ τ) :=
  (mqReleaseAll ((s.mq k).maxMsgs + 1) (s.mq k)).map fun mq =>
    (s.setTasks (s.tasks.ipcResumeAll k)).setMq k { mq with entry := 0 }

end Calls

/-! ### Runs -/

/-- What happens: calls by a thread (`.inl`) or an interrupt handler (`.inr`), a caller going on
    with its call, the timer of a thread, and the clock. -/
inductive Op (κ τ ι : Type*)
  | send (c : τ ⊕ ι) (k : κ) (urgent : Bool) (data : List Byte)
  | recv (c : τ ⊕ ι) (k : κ) (size : ℕ) (timeout : ℤ)
  | goOn (c : τ ⊕ ι)
  | expire (t : τ)
  | reset (c : τ ⊕ ι) (k : κ)
  | tick

/-- The state, the phase of the call that a caller is inside of, what has last been sent into each
    slot, and what the callers have seen. -/
structure Run (κ τ ι : Type*) where
  os : State κ τ
  pc : τ ⊕ ι → Option (Phase κ)
  sent : κ → ℕ → List Byte
  events : List (Ev κ (List Byte))

section Exec
variable [DecidableEq κ] [DecidableEq τ] [DecidableEq ι]

/-- A thread runs only while it is ready. -/
def CanRun (s : Tasks κ τ) : τ ⊕ ι → Prop
  | .inl t => s.stat t = .ready
  | .inr _ => True

instance (s : Tasks κ τ) (c : τ ⊕ ι) : Decidable (CanRun s c) := by
  cases c <;> unfold CanRun <;> infer_instance

/-- What is seen of a step of a call: a send puts its message in when it returns; a receive gets
    the message out that has been sent into the slot it takes. -/
def Run.seen (r : Run κ τ ι) (before : Option (Phase κ)) : Outcome κ → List (Ev κ (List Byte))
  | .done e _ => match before with
    | some (.sendCopied k urgent data _) =>
      if e = rtEok then [if urgent then .putFront k data else .put k data] else []
    | _ => []
  | .goes (.recvTaken k _ msg) => [.get k (r.sent k msg)]
  | .goes _ => []

/-- A step of the call of `c`, which was in the phase `before`. -/
def Run.after (r : Run κ τ ι) (c : τ ⊕ ι) (before : Option (Phase κ)) :
    Outcome κ × State κ τ → Option (ℤ × Option (List Byte)) × Run κ τ ι
  | (.done e bytes, os) => (some (e, bytes),
      { r with os := os
               pc := update r.pc c none
               events := r.events ++ r.seen before (.done e bytes) })
  | (.goes phase, os) => (none,
      { os := os
        pc := update r.pc c (some phase)
        sent := match phase with
          | .sendTaken k _ data msg => update r.sent k (update (r.sent k) msg data)
          | _ => r.sent
        events := r.events ++ r.seen before (.goes phase) })

/-- One step of a run and the value returned in it. -/
def Run.exec (r : Run κ τ ι) : Op κ τ ι → Option (Option (ℤ × Option (List Byte)) × Run κ τ ι)
  | .send c k urgent data =>
    if r.pc c = none ∧ CanRun r.os.tasks c then
      (mqSendBegin k urgent data r.os).map (r.after c none)
    else none
  | .recv c k size timeout =>
    if r.pc c = none ∧ CanRun r.os.tasks c then
      (mqRecvBegin c.getLeft? k size timeout r.os).map (r.after c none)
    else none
  | .goOn c => (r.pc c).bind fun phase =>
    if CanRun r.os.tasks c then
      (mqGoOn c.getLeft? r.os phase).map (r.after c (some phase))
    else none
  | .expire t => (r.os.tasks.expire t).map fun tasks => (none, { r with os := r.os.setTasks tasks })
  | .reset c k =>
    if r.pc c = none ∧ CanRun r.os.tasks c then
      (rtMqReset k r.os).map fun os =>
        (some (rtEok, none), { r with os := os, events := r.events ++ [.clear k] })
    else none
  | .tick => some (none, { r with os := { r.os with tick := (r.os.tick + 1) % 2 ^ 32 } })

/-- The queues just initialised, with pools of any size. -/
def Run.Init (r : Run κ τ ι) : Prop :=
  (∀ k, r.os.tasks.suspended k = []) ∧
    (∀ k, ∃ body msgSize poolSize flag, r.os.mq k = rtMqInit body msgSize poolSize flag ∧
      ∀ i, (body i).length = alignSize msgSize) ∧
    (∀ c, r.pc c = none) ∧ r.events = []

/-- The runs of any number of threads and interrupt handlers on any number of queues. -/
def system : System (Run κ τ ι) (Op κ τ ι) where
  init := Run.Init
  step r op r' := ∃ e, r.exec op = some (e, r')

end Exec

/-! ### One queue -/

/-- The slots of a queue: `F` is the free list, `M` the list of the messages, and `H` are the slots
    that calls have taken out. Each slot of the pool is in one of them, and once. -/
structure Layout (mq : RtMq) (F M H : List ℕ) : Prop where
  free : Chained mq.next mq.free F
  list : Chained mq.next mq.head M
  tail : mq.tail = M.getLast?
  perm : (F ++ M ++ H).Perm (List.range mq.maxMsgs)

namespace Layout
variable {mq : RtMq} {F M H H' : List ℕ} {i j : ℕ}

theorem nodup (l : Layout mq F M H) : (F ++ M ++ H).Nodup :=
  l.perm.nodup_iff.2 List.nodup_range

theorem not_mem (l : Layout mq F M H) (hi : i ∈ H) : i ∉ F ∧ i ∉ M := by
  have := List.nodup_append.1 l.nodup
  have h := fun hm => this.2.2 i hm i hi rfl
  simpa [not_or] using h

theorem free_not_mem (l : Layout mq (i :: F) M H) : i ∉ F ∧ i ∉ M ∧ i ∉ H := by
  have := l.nodup
  simp only [List.cons_append, List.nodup_cons, List.mem_append, not_or] at this
  exact ⟨this.1.1.1, this.1.1.2, this.1.2⟩

theorem list_not_mem (l : Layout mq F (i :: M) H) : i ∉ F ∧ i ∉ M ∧ i ∉ H := by
  have := (List.perm_middle.append_right H).nodup_iff.1 l.nodup
  simp only [List.cons_append, List.nodup_cons, List.mem_append, not_or] at this
  exact ⟨this.1.1.1, this.1.1.2, this.1.2⟩

theorem length_eq (l : Layout mq F M H) : F.length + (M.length + H.length) = mq.maxMsgs := by
  simpa using l.perm.length_eq

/-- The same slots, moved between the lists. -/
theorem perm_of_count {F' M' H' : List ℕ} (l : Layout mq F M H)
    (h : ∀ j, F'.count j + M'.count j + H'.count j = F.count j + M.count j + H.count j) :
    (F' ++ M' ++ H').Perm (List.range mq.maxMsgs) := by
  refine List.Perm.trans (List.perm_iff_count.2 fun j => ?_) l.perm
  simpa only [List.count_append] using h j

/-- The first free slot is taken out. -/
theorem take (l : Layout mq F M H) (hf : mq.free = some i) :
    ∃ F', F = i :: F' ∧ Layout { mq with free := mq.next i } F' M (i :: H) := by
  have hc := l.free
  rw [hf] at hc
  obtain ⟨F', rfl, hc'⟩ := hc.eq_cons
  refine ⟨F', rfl, hc', l.list, l.tail, l.perm_of_count fun j => ?_⟩
  simp only [List.count_cons]
  omega

/-- What is in a slot that has been taken out does not matter. -/
theorem copy (l : Layout mq F M H) (hi : i ∈ H) (body : ℕ → List Byte) (q : Option ℕ) :
    Layout { mq with next := update mq.next i q, body := body } F M H :=
  ⟨l.free.update_of_not_mem (l.not_mem hi).1 q, l.list.update_of_not_mem (l.not_mem hi).2 q, l.tail,
    l.perm⟩

theorem setBody (l : Layout mq F M H) (body : ℕ → List Byte) :
    Layout { mq with body := body } F M H :=
  ⟨l.free, l.list, l.tail, l.perm⟩

theorem setEntry (l : Layout mq F M H) (n : ℕ) : Layout { mq with entry := n } F M H :=
  ⟨l.free, l.list, l.tail, l.perm⟩

/-- A slot that has been taken out is put on the free list. -/
theorem give (l : Layout mq F M H) (hi : i ∈ H) :
    Layout (mqFree i mq) (i :: F) M (H.erase i) := by
  obtain ⟨hF, hM⟩ := l.not_mem hi
  refine ⟨l.free.push hF, l.list.update_of_not_mem hM _, l.tail, l.perm_of_count fun j => ?_⟩
  have := (List.perm_cons_erase hi).count_eq j
  simp only [List.count_cons] at this ⊢
  omega

/-- The first message is taken out. -/
theorem unlink (l : Layout mq F M H) (hh : mq.head = some i) :
    ∃ M', M = i :: M' ∧ Layout (mqUnlink i mq) F M' (i :: H) := by
  have hc := l.list
  rw [hh] at hc
  obtain ⟨M', rfl, hc'⟩ := hc.eq_cons
  refine ⟨M', rfl, l.free, hc', ?_, l.perm_of_count fun j => ?_⟩
  · have ht := l.tail
    cases M' with
    | nil => simp [mqUnlink, ht]
    | cons j M' =>
      have hne : mq.tail ≠ some i := by
        rw [ht, List.getLast?_cons_cons]
        exact fun h => l.list_not_mem.2.1 (List.mem_of_getLast? h)
      rw [mqUnlink, if_neg hne, ht, List.getLast?_cons_cons]
  · simp only [List.count_cons]
    omega

/-- A message becomes the first one. -/
theorem linkHead (l : Layout mq F M H) (hi : i ∈ H) :
    Layout (mqLinkHead i mq) F (i :: M) (H.erase i) := by
  obtain ⟨hF, hM⟩ := l.not_mem hi
  refine ⟨l.free.update_of_not_mem hF _, l.list.push hM, ?_, l.perm_of_count fun j => ?_⟩
  · have ht := l.tail
    cases M with
    | nil => simp [mqLinkHead, ht]
    | cons j M =>
      have hne : mq.tail ≠ none := by
        rw [ht]
        simp
      rw [mqLinkHead, if_neg hne, ht, List.getLast?_cons_cons]
  · have := (List.perm_cons_erase hi).count_eq j
    simp only [List.count_cons] at this ⊢
    omega

/-- A message becomes the last one. -/
theorem linkTail (l : Layout mq F M H) (hi : i ∈ H) (hn : mq.next i = none) :
    Layout (mqLinkTail i mq) F (M ++ [i]) (H.erase i) := by
  obtain ⟨hF, hM⟩ := l.not_mem hi
  have ht := l.tail
  have hl := l.list
  have hperm : (F ++ (M ++ [i]) ++ H.erase i).Perm (List.range mq.maxMsgs) :=
    l.perm_of_count fun j => by
      have := (List.perm_cons_erase hi).count_eq j
      simp only [List.count_append, List.count_cons, List.count_nil] at this ⊢
      omega
  rcases List.eq_nil_or_concat' M with rfl | ⟨M', j, rfl⟩
  · -- the list was empty
    have hhead : mq.head = none := hl
    have htail : mq.tail = none := ht
    refine ⟨?_, ?_, by simp [mqLinkTail], hperm⟩
    · rw [mqLinkTail, htail]
      exact l.free
    · rw [mqLinkTail, htail, hhead, if_pos rfl]
      exact ⟨rfl, hn⟩
  · have htail : mq.tail = some j := by simpa using ht
    have hhead : mq.head ≠ none := by
      rw [hl.head]
      simp
    have hjF : j ∉ F := fun h => by
      have := l.nodup
      simp only [List.append_assoc] at this
      exact (List.nodup_append.1 this).2.2 j h j (by simp) rfl
    refine ⟨?_, ?_, by simp [mqLinkTail], hperm⟩
    · rw [mqLinkTail, htail]
      exact l.free.update_of_not_mem hjF _
    · rw [mqLinkTail, htail, if_neg hhead]
      have hnd : (M' ++ [j]).Nodup := (List.nodup_append.1 (List.nodup_append.1 l.nodup).1).2.1
      exact hl.append hnd hM hn

/-- The loop of the reset frees all messages. -/
theorem releaseAll : ∀ (fuel : ℕ) {mq : RtMq} {F M : List ℕ}, Layout mq F M H →
    M.length < fuel → ∃ mq', mqReleaseAll fuel mq = some mq' ∧ Layout mq' (M.reverse ++ F) [] H ∧
      mq'.body = mq.body ∧ mq'.msgSize = mq.msgSize ∧ mq'.maxMsgs = mq.maxMsgs ∧
      ∀ i ∈ H, mq'.next i = mq.next i
  | 0, _, _, _, _, hf => absurd hf (Nat.not_lt_zero _)
  | fuel + 1, mq, F, [], l, _ => by
    have hh : mq.head = none := l.list
    exact ⟨mq, by rw [mqReleaseAll, hh], l, rfl, rfl, rfl, fun _ _ => rfl⟩
  | fuel + 1, mq, F, i :: M, l, hf => by
    have hh : mq.head = some i := l.list.1
    obtain ⟨M', hM, l'⟩ := l.unlink hh
    obtain rfl := (List.cons.inj hM).2
    have l'' := l'.give List.mem_cons_self
    rw [List.erase_cons_head] at l''
    obtain ⟨mq', hr, hl, hb, hs, hm, hn⟩ := releaseAll fuel l'' (by simpa using hf)
    refine ⟨mq', ?_, by simpa using hl, hb, hs, hm, fun j hj => ?_⟩
    · rw [mqReleaseAll, hh]
      exact hr
    · have hne : j ≠ i := fun e => l.list_not_mem.2.2 (e ▸ hj)
      rw [hn j hj]
      exact update_of_ne hne _ _

end Layout

/-- The loop of `rt_mq_init` puts the first `n` slots on the free list. -/
theorem initLoop (mq : RtMq) (hf : mq.free = none) : ∀ n, ∃ next free,
    (List.range n).foldl (fun mq i => { mq with next := update mq.next i mq.free, free := some i })
      mq = { mq with next := next, free := free } ∧ Chained next free (List.range n).reverse
  | 0 => ⟨mq.next, mq.free, rfl, hf⟩
  | n + 1 => by
    obtain ⟨next, free, hfold, hc⟩ := initLoop mq hf n
    refine ⟨update next n free, some n, ?_, ?_⟩
    · rw [List.range_succ, List.foldl_append, hfold]
      rfl
    · rw [List.range_succ, List.reverse_append]
      exact hc.push (by simp)

theorem rtMqInit_spec (body : ℕ → List Byte) (msgSize poolSize : ℕ) (flag : IpcFlag) :
    ∃ F, Layout (rtMqInit body msgSize poolSize flag) F [] [] ∧
      (rtMqInit body msgSize poolSize flag).entry = 0 ∧
      (rtMqInit body msgSize poolSize flag).body = body ∧
      (rtMqInit body msgSize poolSize flag).msgSize = alignSize msgSize ∧
      (rtMqInit body msgSize poolSize flag).maxMsgs < 65536 := by
  unfold rtMqInit
  obtain ⟨next, free, hfold, hc⟩ := initLoop
    { next := fun _ => none, body := body, msgSize := alignSize msgSize
      maxMsgs := poolSize / (alignSize msgSize + 4) % 65536, entry := 0, head := none, tail := none
      free := none, flag := flag } rfl (poolSize / (alignSize msgSize + 4) % 65536)
  dsimp only
  rw [hfold]
  refine ⟨_, ⟨hc, rfl, rfl, ?_⟩, rfl, rfl, rfl, Nat.mod_lt _ (by decide)⟩
  simp [List.reverse_perm]

end EasyCore.Ipc.MsgQueue
