import EasyCore.Kernel.Waiting
import EasyCore.Lib.Fifo
import EasyCore.Lib.Ring
import EasyCore.Lib.Runs

/-! Mailboxes (`src/ipc.c`, `rt_mb_*`).

    A sender waits while the mailbox is full and a receiver while it is empty. A thread that has
    been woken does not own what it waited for: it looks again, with what is left of its waiting
    time, and may find that another caller was faster. -/

namespace EasyCore.Ipc.Mailbox
open Function EasyCore.Kernel EasyCore.Runs EasyCore.Fifo

/-- `struct rt_mailbox`; the numbers are 16 bits wide. -/
structure RtMailbox where
  msgPool : ℕ → BitVec 32
  size : ℕ
  entry : ℕ
  inOffset : ℕ
  outOffset : ℕ
  flag : IpcFlag

/-- The two suspend lists of a mailbox: `parent.suspend_thread`, `suspend_sender_thread`. -/
inductive Side
  | receivers
  | senders
  deriving DecidableEq

/-- The threads, the mailboxes, and the tick counter. -/
structure State (κ τ : Type*) where
  tasks : Tasks (κ × Side) τ
  mb : κ → RtMailbox
  tick : ℕ

variable {κ τ : Type*}

/-- `rt_mb_init` and `rt_mb_create`. -/
def rtMbInit (msgpool : ℕ → BitVec 32) (size : ℕ) (flag : IpcFlag) : RtMailbox :=
  ⟨msgpool, size % 65536, 0, 0, 0, flag⟩

/-- How far a call got: it returns, a receive with the mail, or it waits with what it keeps in
    `timeout` and `tick_delta`. -/
inductive Outcome
  | done (e : ℤ) (mail : Option (BitVec 32))
  | waits (timeout : ℤ) (tickDelta : ℕ)

section Calls
variable [DecidableEq κ] [DecidableEq τ]

def State.setTasks (s : State κ τ) (tasks : Tasks (κ × Side) τ) : State κ τ :=
  { s with tasks := tasks }

def State.setMb (s : State κ τ) (k : κ) (mb : RtMailbox) : State κ τ :=
  { s with mb := update s.mb k mb }

/-- The end of `rt_mb_send_wait`: store the mail and wake a receiver. -/
def mbStore (k : κ) (value : BitVec 32) (s : State κ τ) : State κ τ :=
  let mb := s.mb k
  let inOffset := (mb.inOffset + 1) % 65536
  (s.setMb k { mb with
    msgPool := update mb.msgPool mb.inOffset value
    inOffset := if inOffset ≥ mb.size then 0 else inOffset
    entry := (mb.entry + 1) % 65536 }).setTasks (s.tasks.ipcWake (k, .receivers))

/-- The end of `rt_mb_recv`: take the mail and wake a sender. -/
def mbFetch (k : κ) (s : State κ τ) : BitVec 32 × State κ τ :=
  let mb := s.mb k
  let outOffset := (mb.outOffset + 1) % 65536
  (mb.msgPool mb.outOffset, (s.setMb k { mb with
    outOffset := if outOffset ≥ mb.size then 0 else outOffset
    entry := (mb.entry + 65535) % 65536 }).setTasks (s.tasks.ipcWake (k, .senders)))

/-- The caller goes to sleep; only a thread can. -/
def mbSleep (thread : τ) (k : κ) (side : Side) (timeout : ℤ) (tickDelta : ℕ) (s : State κ τ) :
    Outcome × State κ τ :=
  (.waits timeout (if timeout > 0 then s.tick else tickDelta),
    s.setTasks ((s.tasks.setError thread rtEok).sleep thread (k, side) (s.mb k).flag timeout))

/-- The loop of `rt_mb_send_wait` up to its `rt_schedule`, and what follows the loop. -/
def mbSendLoop (c : Option τ) (k : κ) (value : BitVec 32) (timeout : ℤ) (tickDelta : ℕ)
    (s : State κ τ) : Option (Outcome × State κ τ) :=
  if (s.mb k).entry = (s.mb k).size then
    c.map fun thread =>
      if timeout = 0 then (.done (-rtEfull) none, s.setTasks (s.tasks.setError thread rtEok))
      else mbSleep thread k .senders timeout tickDelta s
  else some (.done rtEok none, mbStore k value s)

/-- `rt_mb_send_wait` up to its `rt_schedule`. -/
def rtMbSendWait (c : Option τ) (k : κ) (value : BitVec 32) (timeout : ℤ) (s : State κ τ) :
    Option (Outcome × State κ τ) :=
  if (s.mb k).entry = (s.mb k).size ∧ timeout = 0 then some (.done (-rtEfull) none, s)
  else mbSendLoop c k value timeout 0 s

/-- The loop of `rt_mb_recv` up to its `rt_schedule`, and what follows the loop. -/
def mbRecvLoop (c : Option τ) (k : κ) (timeout : ℤ) (tickDelta : ℕ) (s : State κ τ) :
    Option (Outcome × State κ τ) :=
  if (s.mb k).entry = 0 then
    c.map fun thread =>
      if timeout = 0 then
        (.done (-rtEtimeout) none, s.setTasks (s.tasks.setError thread (-rtEtimeout)))
      else mbSleep thread k .receivers timeout tickDelta s
  else
    let (value, s) := mbFetch k s
    some (.done rtEok (some value), s)

/-- `rt_mb_recv` up to its `rt_schedule`. -/
def rtMbRecv (c : Option τ) (k : κ) (timeout : ℤ) (s : State κ τ) :
    Option (Outcome × State κ τ) :=
  if (s.mb k).entry = 0 ∧ timeout = 0 then some (.done (-rtEtimeout) none, s)
  else mbRecvLoop c k timeout 0 s

/-- `rt_mb_control` with `RT_IPC_CMD_RESET`. -/
def rtMbReset (k : κ) (s : State κ τ) : State κ τ :=
  (s.setTasks ((s.tasks.ipcResumeAll (k, .receivers)).ipcResumeAll (k, .senders))).setMb k
    { s.mb k with entry := 0, inOffset := 0, outOffset := 0 }

end Calls

/-! ### Runs -/

/-- A call that waits: a send with its mail, or a receive. -/
structure Call (κ : Type*) where
  mb : κ
  mail : Option (BitVec 32)
  timeout : ℤ
  tickDelta : ℕ

/-- What happens: calls by a thread or an interrupt handler, a thread going on after the
    `rt_schedule` of its call, the timer of a thread, and the clock. -/
inductive Op (κ τ : Type*)
  | send (c : Option τ) (k : κ) (value : BitVec 32) (timeout : ℤ)
  | recv (c : Option τ) (k : κ) (timeout : ℤ)
  | goOn (t : τ)
  | expire (t : τ)
  | reset (c : Option τ) (k : κ)
  | tick

/-- The state, the call that a thread is inside of, and what the callers have seen. -/
structure Run (κ τ : Type*) where
  os : State κ τ
  pc : τ → Option (Call κ)
  events : List (Ev κ (BitVec 32))

section Exec
variable [DecidableEq κ] [DecidableEq τ]

/-- What is seen when a call returns `e`: a send that succeeds has put its mail in, a receive that
    succeeds has got one out. -/
def seen (k : κ) (value : Option (BitVec 32)) (e : ℤ) (mail : Option (BitVec 32)) :
    List (Ev κ (BitVec 32)) :=
  if e = rtEok then [value.elim (.get k (mail.getD 0)) (.put k)] else []

/-- The caller returns or waits. -/
def Run.after (r : Run κ τ) (c : Option τ) (k : κ) (value : Option (BitVec 32)) :
    Outcome × State κ τ → Option (ℤ × Option (BitVec 32)) × Run κ τ
  | (.done e mail, os) => (some (e, mail),
      { os := os
        pc := c.elim r.pc fun t => update r.pc t none
        events := r.events ++ seen k value e mail })
  | (.waits timeout tickDelta, os) => (none,
      { r with os := os
               pc := c.elim r.pc fun t => update r.pc t (some ⟨k, value, timeout, tickDelta⟩) })

/-- A call goes on after its `rt_schedule`. -/
def mbGoOn (t : τ) (call : Call κ) (s : State κ τ) : Option (Outcome × State κ τ) :=
  if s.tasks.error t ≠ rtEok then some (.done (s.tasks.error t) none, s)
  else
    let (timeout, tickDelta) := adjust call.timeout call.tickDelta s.tick
    match call.mail with
    | some value => mbSendLoop (some t) call.mb value timeout tickDelta s
    | none => mbRecvLoop (some t) call.mb timeout tickDelta s

/-- One step of a run and the value returned in it. -/
def Run.exec (r : Run κ τ) : Op κ τ → Option (Option (ℤ × Option (BitVec 32)) × Run κ τ)
  | .send c k value timeout =>
    if r.os.tasks.Free r.pc c then
      (rtMbSendWait c k value timeout r.os).map (r.after c k (some value))
    else none
  | .recv c k timeout =>
    if r.os.tasks.Free r.pc c then (rtMbRecv c k timeout r.os).map (r.after c k none) else none
  | .goOn t => (r.pc t).bind fun call =>
    if r.os.tasks.stat t = .ready then
      (mbGoOn t call r.os).map (r.after (some t) call.mb call.mail)
    else none
  | .expire t => (r.os.tasks.expire t).map fun tasks => (none, { r with os := r.os.setTasks tasks })
  | .reset c k =>
    if r.os.tasks.Free r.pc c then
      some (some (rtEok, none),
        { r with os := rtMbReset k r.os, events := r.events ++ [.clear k] })
    else none
  | .tick => some (none, { r with os := { r.os with tick := (r.os.tick + 1) % 2 ^ 32 } })

/-- The mailboxes just initialised with the sizes `size`. -/
def Run.Init (size : κ → ℕ) (r : Run κ τ) : Prop :=
  (∀ k, r.os.tasks.suspended (k, .receivers) = [] ∧ r.os.tasks.suspended (k, .senders) = []) ∧
    (∀ k, ∃ msgpool flag, r.os.mb k = rtMbInit msgpool (size k) flag) ∧
    (∀ t, r.pc t = none) ∧ r.events = []

/-- The runs of any number of senders and receivers on any number of mailboxes. -/
def system (size : κ → ℕ) : System (Run κ τ) (Op κ τ) where
  init := Run.Init size
  step r op r' := ∃ e, r.exec op = some (e, r')

end Exec

/-! ### A mailbox is a bounded queue -/

/-- The mails in a mailbox, the oldest first. -/
def State.mails (s : State κ τ) (k : κ) : List (BitVec 32) :=
  Ring.items (s.mb k).msgPool (s.mb k).size (s.mb k).outOffset (s.mb k).entry

def State.size (s : State κ τ) (k : κ) : ℕ := (s.mb k).size

/-- The mailbox, and the mail if it is a send, of the call that an operation is a part of. -/
def Run.callOf (r : Run κ τ) : Op κ τ → Option (κ × Option (BitVec 32))
  | .send _ k value _ => some (k, some value)
  | .recv _ k _ => some (k, none)
  | .goOn t => (r.pc t).map fun call => (call.mb, call.mail)
  | _ => none

section Refine
variable [DecidableEq κ] [DecidableEq τ]

/-- What the callers have seen is what they see of bounded queues, and the mailboxes hold the
    contents of these (`run`): since its last reset a mailbox has given out what has been put into
    it, in this order and each mail once (`order`). A call returns `RT_EOK` exactly if it has put
    one mail in or got one out, and nothing else but a reset changes the contents. -/
structure IsFifo (r : Run κ τ) : Prop where
  run : Fifo.run r.os.size (fun _ => []) r.events = some r.os.mails
  order : ∀ k, (history k r.events).1 = (history k r.events).2 ++ r.os.mails k
  entry : ∀ k, (r.os.mb k).entry = (r.os.mails k).length ∧ (r.os.mb k).entry ≤ (r.os.mb k).size
  offsets : ∀ k, 0 < (r.os.mb k).size →
    (r.os.mb k).inOffset < (r.os.mb k).size ∧ (r.os.mb k).outOffset < (r.os.mb k).size
  succeeds : ∀ op k value mail r', r.callOf op = some (k, value) →
    r.exec op = some (some (rtEok, mail), r') →
    Fifo.step r.os.size r.os.mails (value.elim (.get k (mail.getD 0)) (.put k)) = some r'.os.mails
  fails : ∀ op k value e mail r', r.callOf op = some (k, value) → e ≠ rtEok →
    r.exec op = some (some (e, mail), r') → r'.os.mails = r.os.mails
  waits : ∀ op r', r.exec op = some (none, r') → r'.os.mails = r.os.mails

/-- What a call does to the mailboxes as far as it has got. -/
inductive Effect (k : κ) (value : Option (BitVec 32)) (s : State κ τ) :
    Outcome → State κ τ → Prop
  | failed {e : ℤ} {s' : State κ τ} (he : e ≠ rtEok) (hs : s'.mb = s.mb) :
    Effect k value s (.done e none) s'
  | waits {timeout : ℤ} {tickDelta : ℕ} {s' : State κ τ} (hs : s'.mb = s.mb) :
    Effect k value s (.waits timeout tickDelta) s'
  | stored {v : BitVec 32} (hv : value = some v) (hn : (s.mb k).entry ≠ (s.mb k).size) :
    Effect k value s (.done rtEok none) (mbStore k v s)
  | fetched (hv : value = none) (hn : (s.mb k).entry ≠ 0) :
    Effect k value s (.done rtEok (some (mbFetch k s).1)) (mbFetch k s).2

variable {s s' : State κ τ} {c : Option τ} {t : τ} {k : κ} {v : BitVec 32} {timeout : ℤ}
  {tickDelta : ℕ} {out : Outcome} {value : Option (BitVec 32)}

theorem sendLoop_effect (h : mbSendLoop c k v timeout tickDelta s = some (out, s')) :
    Effect k (some v) s out s' := by
  rw [mbSendLoop] at h
  split at h
  · obtain ⟨t, -, h⟩ := Option.map_eq_some_iff.1 h
    split at h
    · obtain ⟨rfl, rfl⟩ := Prod.mk.inj h
      exact .failed (by decide) rfl
    · obtain ⟨rfl, rfl⟩ := Prod.mk.inj h
      exact .waits rfl
  next hn =>
    obtain ⟨rfl, rfl⟩ := Prod.mk.inj (Option.some.inj h)
    exact .stored rfl hn

theorem recvLoop_effect (h : mbRecvLoop c k timeout tickDelta s = some (out, s')) :
    Effect k none s out s' := by
  rw [mbRecvLoop] at h
  split at h
  · obtain ⟨t, -, h⟩ := Option.map_eq_some_iff.1 h
    split at h
    · obtain ⟨rfl, rfl⟩ := Prod.mk.inj h
      exact .failed (by decide) rfl
    · obtain ⟨rfl, rfl⟩ := Prod.mk.inj h
      exact .waits rfl
  next hn =>
    obtain ⟨rfl, rfl⟩ := Prod.mk.inj (Option.some.inj h)
    exact .fetched rfl hn

theorem sendWait_effect (h : rtMbSendWait c k v timeout s = some (out, s')) :
    Effect k (some v) s out s' := by
  rw [rtMbSendWait] at h
  split at h
  · obtain ⟨rfl, rfl⟩ := Prod.mk.inj (Option.some.inj h)
    exact .failed (by decide) rfl
  · exact sendLoop_effect h

theorem recv_effect (h : rtMbRecv c k timeout s = some (out, s')) : Effect k none s out s' := by
  rw [rtMbRecv] at h
  split at h
  · obtain ⟨rfl, rfl⟩ := Prod.mk.inj (Option.some.inj h)
    exact .failed (by decide) rfl
  · exact recvLoop_effect h

theorem goOn_effect {call : Call κ} (h : mbGoOn t call s = some (out, s')) :
    Effect call.mb call.mail s out s' := by
  rw [mbGoOn] at h
  split at h
  next he =>
    obtain ⟨rfl, rfl⟩ := Prod.mk.inj (Option.some.inj h)
    exact .failed he rfl
  next =>
    dsimp only at h
    split at h
    next hm =>
      rw [hm]
      exact sendLoop_effect h
    next hm =>
      rw [hm]
      exact recvLoop_effect h

/-- The indices of every mailbox are in order. -/
def Rings (s : State κ τ) : Prop :=
  ∀ k, Ring.Ok (s.mb k).size (s.mb k).inOffset (s.mb k).outOffset (s.mb k).entry ∧
    (s.mb k).size < 65536

/-- The event of a call as far as it has got. -/
def Outcome.events (k : κ) (value : Option (BitVec 32)) : Outcome → List (Ev κ (BitVec 32))
  | .done e mail => seen k value e mail
  | .waits _ _ => []

omit [DecidableEq κ] [DecidableEq τ] in
theorem mails_of_mb (h : s'.mb = s.mb) : s'.mails = s.mails ∧ s'.size = s.size := by
  simp only [funext_iff, State.mails, State.size, h, implies_true, and_self]

omit [DecidableEq κ] [DecidableEq τ] in
theorem Rings.of_mb (hr : Rings s) (h : s'.mb = s.mb) : Rings s' := fun k => by
  rw [h]
  exact hr k

omit [DecidableEq τ] in
/-- The mails after a store into one mailbox. -/
theorem mails_setMb {mb : RtMailbox} (h : s'.mb = update s.mb k mb)
    (hs : mb.size = (s.mb k).size) :
    s'.size = s.size ∧
      s'.mails = update s.mails k (Ring.items mb.msgPool mb.size mb.outOffset mb.entry) := by
  constructor <;> funext k' <;> by_cases hk : k' = k
  · subst hk
    simp [State.size, h, hs]
  · simp [State.size, h, hk]
  · subst hk
    simp [State.mails, h]
  · simp [State.mails, h, hk]

omit [DecidableEq τ] in
theorem Rings.setMb (hr : Rings s) {mb : RtMailbox} (h : s'.mb = update s.mb k mb)
    (hs : mb.size = (s.mb k).size)
    (ho : Ring.Ok mb.size mb.inOffset mb.outOffset mb.entry) : Rings s' := fun k' => by
  rw [h]
  by_cases hk : k' = k
  · subst hk
    rw [update_self]
    exact ⟨ho, hs ▸ (hr k').2⟩
  · rw [update_of_ne hk]
    exact hr k'

/-- Each effect is that of its event on bounded queues. -/
theorem Effect.refines (h : Effect k value s out s') (hr : Rings s) :
    Rings s' ∧ s'.size = s.size ∧
      Fifo.run s.size s.mails (out.events k value) = some s'.mails := by
  obtain ⟨ok, hlt⟩ := hr k
  cases h with
  | failed he hs =>
    obtain ⟨hm, hz⟩ := mails_of_mb hs
    exact ⟨hr.of_mb hs, hz, by simp [Outcome.events, seen, he, hm]⟩
  | waits hs =>
    obtain ⟨hm, hz⟩ := mails_of_mb hs
    exact ⟨hr.of_mb hs, hz, by simp [Outcome.events, hm]⟩
  | @stored v hv hn =>
    have hle := ok.le
    have hin : ((s.mb k).inOffset + 1) % 65536 = (s.mb k).inOffset + 1 :=
      Nat.mod_eq_of_lt (by have := ok.inn_lt (by omega); omega)
    have hen : ((s.mb k).entry + 1) % 65536 = (s.mb k).entry + 1 := Nat.mod_eq_of_lt (by omega)
    have hmb : (mbStore k v s).mb = update s.mb k { s.mb k with
        msgPool := update (s.mb k).msgPool (s.mb k).inOffset v
        inOffset := Ring.next (s.mb k).size (s.mb k).inOffset
        entry := (s.mb k).entry + 1 } := by
      simp only [mbStore, State.setMb, State.setTasks, hin, hen, Ring.next]
    obtain ⟨hz, hm⟩ := mails_setMb hmb rfl
    refine ⟨hr.setMb hmb rfl (ok.push (by omega)), hz, ?_⟩
    rw [hm, ok.items_push (by omega), Outcome.events, seen, if_pos rfl, hv]
    exact run_step run_nil (step_put (by simp [State.mails, State.size]; omega))
  | fetched hv hn =>
    obtain ⟨n, he⟩ := Nat.exists_eq_succ_of_ne_zero hn
    rw [he] at ok
    have hle := ok.le
    have hout : ((s.mb k).outOffset + 1) % 65536 = (s.mb k).outOffset + 1 :=
      Nat.mod_eq_of_lt (by have := ok.out_lt (by omega); omega)
    have hen : ((s.mb k).entry + 65535) % 65536 = n := by omega
    have hmb : (mbFetch k s).2.mb = update s.mb k { s.mb k with
        outOffset := Ring.next (s.mb k).size (s.mb k).outOffset
        entry := n } := by
      simp only [mbFetch, State.setMb, State.setTasks, hout, hen, Ring.next]
    obtain ⟨hz, hm⟩ := mails_setMb hmb rfl
    refine ⟨hr.setMb hmb rfl ok.pop, hz, ?_⟩
    rw [hm, Outcome.events, seen, if_pos rfl, hv]
    refine run_step run_nil (step_get ?_)
    rw [State.mails, he, ok.items_pop]
    rfl

/-- A reset empties the mailbox. -/
theorem reset_refines (hr : Rings s) : Rings (rtMbReset k s) ∧ (rtMbReset k s).size = s.size ∧
    Fifo.run s.size s.mails [.clear k] = some (rtMbReset k s).mails := by
  have hmb : (rtMbReset k s).mb = update s.mb k
      { s.mb k with entry := 0, inOffset := 0, outOffset := 0 } := rfl
  obtain ⟨hz, hm⟩ := mails_setMb hmb rfl
  refine ⟨hr.setMb hmb rfl (.empty _), hz, ?_⟩
  rw [hm]
  rfl

variable {r r' : Run κ τ} {op : Op κ τ} {e : Option (ℤ × Option (BitVec 32))}

/-- The result that a caller gets, if it does not wait. -/
def Outcome.result : Outcome → Option (ℤ × Option (BitVec 32))
  | .done e mail => some (e, mail)
  | .waits _ _ => none

omit [DecidableEq κ] in
theorem after_fields (r : Run κ τ) (c : Option τ) (k : κ) (value : Option (BitVec 32)) (out : Outcome)
    (s : State κ τ) : (r.after c k value (out, s)).1 = out.result ∧
      (r.after c k value (out, s)).2.os = s ∧
      (r.after c k value (out, s)).2.events = r.events ++ out.events k value := by
  cases out with
  | done e mail => exact ⟨rfl, rfl, rfl⟩
  | waits timeout tickDelta => exact ⟨rfl, rfl, (List.append_nil _).symm⟩

/-- A step is a part of a call, or a reset, or leaves the mailboxes alone. -/
theorem exec_cases (h : r.exec op = some (e, r')) :
    (∃ k value out, r.callOf op = some (k, value) ∧ Effect k value r.os out r'.os ∧
      e = out.result ∧ r'.events = r.events ++ out.events k value) ∨
    (r.callOf op = none ∧ ∃ k, e = some (rtEok, none) ∧ r'.os = rtMbReset k r.os ∧
      r'.events = r.events ++ [.clear k]) ∨
    (r.callOf op = none ∧ e = none ∧ r'.os.mb = r.os.mb ∧ r'.events = r.events) := by
  have call : ∀ {c : Option τ} {k value} {o : Option (Outcome × State κ τ)},
      r.callOf op = some (k, value) → o.map (r.after c k value) = some (e, r') →
      (∀ out s', o = some (out, s') → Effect k value r.os out s') →
      ∃ k value out, r.callOf op = some (k, value) ∧ Effect k value r.os out r'.os ∧
        e = out.result ∧ r'.events = r.events ++ out.events k value := by
    intro c k value o hc hm heff
    obtain ⟨⟨out, s'⟩, ho, ha⟩ := Option.map_eq_some_iff.1 hm
    have hafter := after_fields r c k value out s'
    rw [ha] at hafter
    obtain ⟨h1, h2, h3⟩ := hafter
    exact ⟨k, value, out, hc, h2 ▸ heff out s' ho, h1, h3⟩
  cases op with
  | send c k value timeout =>
    obtain ⟨-, h⟩ := Option.ite_none_right_eq_some.1 h
    exact .inl (call rfl h fun _ _ => sendWait_effect)
  | recv c k timeout =>
    obtain ⟨-, h⟩ := Option.ite_none_right_eq_some.1 h
    exact .inl (call rfl h fun _ _ => recv_effect)
  | goOn t =>
    obtain ⟨w, hw, h⟩ := Option.bind_eq_some_iff.1 h
    obtain ⟨-, h⟩ := Option.ite_none_right_eq_some.1 h
    exact .inl (call (by simp [Run.callOf, hw]) h fun _ _ => goOn_effect)
  | expire t =>
    obtain ⟨tasks, -, h⟩ := Option.map_eq_some_iff.1 h
    obtain ⟨rfl, rfl⟩ := Prod.mk.inj h
    exact .inr (.inr ⟨rfl, rfl, rfl, rfl⟩)
  | reset c k =>
    obtain ⟨-, h⟩ := Option.ite_none_right_eq_some.1 h
    obtain ⟨rfl, rfl⟩ := Prod.mk.inj (Option.some.inj h)
    exact .inr (.inl ⟨rfl, k, rfl, rfl, rfl⟩)
  | tick =>
    obtain ⟨rfl, rfl⟩ := Prod.mk.inj (Option.some.inj h)
    exact .inr (.inr ⟨rfl, rfl, rfl, rfl⟩)

/-- The invariant. -/
structure Inv (r : Run κ τ) : Prop where
  rings : Rings r.os
  run : Fifo.run r.os.size (fun _ => []) r.events = some r.os.mails
  inOrder : ∀ e ∈ r.events, e.InOrder

omit [DecidableEq τ] in
theorem init_inv {size : κ → ℕ} (h : r.Init size) : Inv r := by
  obtain ⟨-, hm, -, he⟩ := h
  refine ⟨fun k => ?_, ?_, by simp [he]⟩
  · obtain ⟨msgpool, flag, hk⟩ := hm k
    rw [hk]
    exact ⟨.empty _, Nat.mod_lt _ (by decide)⟩
  · rw [he, run_nil, Option.some.injEq]
    funext k
    obtain ⟨msgpool, flag, hk⟩ := hm k
    simp [State.mails, hk, rtMbInit, Ring.items]

omit [DecidableEq κ] in
theorem seen_inOrder {e : ℤ} {mail : Option (BitVec 32)} : ∀ ev ∈ seen k value e mail, ev.InOrder := by
  intro ev hev
  unfold seen at hev
  split at hev
  · obtain rfl := List.mem_singleton.1 hev
    cases value <;> trivial
  · simp at hev

omit [DecidableEq τ] in
/-- The events that a step adds act on the mails as on bounded queues. -/
theorem Inv.append (i : Inv r) {es : List (Ev κ (BitVec 32))} (hr : Rings r'.os)
    (hz : r'.os.size = r.os.size) (he : r'.events = r.events ++ es)
    (hs : Fifo.run r.os.size r.os.mails es = some r'.os.mails) (ho : ∀ e ∈ es, e.InOrder) :
    Inv r' := by
  refine ⟨hr, ?_, fun e hm => ?_⟩
  · rw [he, hz, Fifo.run, List.foldlM_append]
    change (Fifo.run r.os.size _ r.events).bind _ = _
    rw [i.run]
    exact hs
  · rw [he, List.mem_append] at hm
    exact hm.elim (i.inOrder e) (ho e)

/-- One step keeps the invariant. -/
theorem Inv.step (i : Inv r) (h : r.exec op = some (e, r')) : Inv r' := by
  rcases exec_cases h with ⟨k, value, out, -, heff, -, he⟩ | ⟨-, k, -, hos, he⟩ | ⟨-, -, hmb, he⟩
  · obtain ⟨hr, hz, hs⟩ := heff.refines i.rings
    refine i.append hr hz he hs ?_
    cases out with
    | done e mail => exact seen_inOrder
    | waits timeout tickDelta => simp [Outcome.events]
  · obtain ⟨hr, hz, hs⟩ := reset_refines (k := k) i.rings
    rw [← hos] at hr hz hs
    exact i.append hr hz he hs (by simp [Ev.InOrder])
  · obtain ⟨hm, hz⟩ := mails_of_mb hmb
    exact i.append (i.rings.of_mb hmb) hz (he.trans (List.append_nil _).symm) (by simp [hm])
      (by simp)

theorem Inv.isFifo (i : Inv r) : IsFifo r where
  run := i.run
  order := history_eq i.inOrder i.run
  entry k := ⟨Ring.length_items.symm, (i.rings k).1.le⟩
  offsets k hs := ⟨(i.rings k).1.inn_lt hs, (i.rings k).1.out_lt hs⟩
  succeeds op k value mail r' hc h := by
    rcases exec_cases h with ⟨k', value', out, hc', heff, he, -⟩ | ⟨hn, -⟩ | ⟨hn, -⟩
    · obtain ⟨rfl, rfl⟩ := Prod.mk.inj (Option.some.inj (hc.symm.trans hc'))
      obtain ⟨-, -, hs⟩ := heff.refines i.rings
      cases out with
      | done e m =>
        obtain ⟨rfl, rfl⟩ := Prod.mk.inj (Option.some.inj he)
        rw [Outcome.events, seen, if_pos rfl] at hs
        simpa [Fifo.run] using hs
      | waits timeout tickDelta => exact absurd he (by simp [Outcome.result])
    · exact absurd (hn.symm.trans hc) (by simp)
    · exact absurd (hn.symm.trans hc) (by simp)
  fails op k value e mail r' hc hne h := by
    rcases exec_cases h with ⟨k', value', out, hc', heff, he, -⟩ | ⟨hn, -⟩ | ⟨hn, -⟩
    · obtain ⟨-, -, hs⟩ := heff.refines i.rings
      cases out with
      | done e' m =>
        obtain ⟨rfl, rfl⟩ := Prod.mk.inj (Option.some.inj he)
        rw [Outcome.events, seen, if_neg hne] at hs
        exact (Option.some.inj hs).symm
      | waits timeout tickDelta => exact absurd he (by simp [Outcome.result])
    · exact absurd (hn.symm.trans hc) (by simp)
    · exact absurd (hn.symm.trans hc) (by simp)
  waits op r' h := by
    rcases exec_cases h with ⟨k, value, out, -, heff, he, -⟩ | ⟨-, k, he, -⟩ | ⟨-, -, hmb, -⟩
    · obtain ⟨-, -, hs⟩ := heff.refines i.rings
      cases out with
      | done e m => exact absurd he (by simp [Outcome.result])
      | waits timeout tickDelta => exact (Option.some.inj hs).symm
    · exact absurd he (by simp)
    · exact (mails_of_mb hmb).1

theorem exec_step {size : κ → ℕ} (h : (r.exec op).map Prod.snd = some r') :
    True ∧ (system size).step r op r' := by
  obtain ⟨⟨e, r₁⟩, hr, rfl⟩ := Option.map_eq_some_iff.1 h
  exact ⟨trivial, e, hr⟩

/-- One empty mailbox for two mails, and threads that are ready. -/
def board : Run Unit ℕ where
  os := { tasks := ⟨fun t => ⟨.ready, t, t, 0, 0, 0, 0, false, false, true⟩, fun _ => []⟩
          mb _ := rtMbInit (fun _ => 0) 2 .prio
          tick := 0 }
  pc _ := none
  events := []

theorem board_init : board.Init fun _ => 2 :=
  ⟨fun _ => ⟨rfl, rfl⟩, fun _ => ⟨_, _, rfl⟩, fun _ => rfl, rfl⟩

/-- A receiver is woken and an interrupt handler is faster; two senders wait, one too long. -/
def boardRun : List (Op Unit ℕ) :=
  [.recv (some 3) () 10, .tick, .send none () 7 0, .recv none () 0, .goOn 3, .expire 3, .goOn 3,
    .send (some 4) () 1 0, .send (some 4) () 2 0, .send (some 5) () 3 (-1), .send (some 6) () 4 1,
    .expire 6, .goOn 6, .recv (some 3) () 0, .goOn 5, .recv (some 3) () 0, .reset none ()]

/-- CORRECT: in every run of any senders and receivers, with every order of the steps. -/
theorem isFifo_of_reachable {size : κ → ℕ} (h : Reachable (system size) r) : IsFifo r := by
  refine Inv.isFifo (h.invariant (fun _ hi => init_inv hi) ?_)
  rintro r op r' hi - ⟨e, hs⟩
  exact hi.step hs

theorem isFifo_of_reachable_board :
    ∃ r, replay (fun r op => (Run.exec r op).map Prod.snd) board boardRun = some r ∧ IsFifo r := by
  obtain ⟨r, hr⟩ := Option.isSome_iff_exists.1
    (show (replay (fun r op => (Run.exec r op).map Prod.snd) board boardRun).isSome = true by
      decide +kernel)
  exact ⟨r, hr, isFifo_of_reachable (Reach.of_replay (fun _ _ _ h => exec_step h) _
    (Reach.init board_init) hr)⟩

end Refine

end EasyCore.Ipc.Mailbox
