import EasyCore.Kernel.Waiting
import EasyCore.Lib.Ring
import EasyCore.Lib.Runs

/-! Data queues (`components/drivers/src/dataqueue.c`): records in an array, between two indices that run
    on freely. The indices are 16 bits wide, but the difference that tells a full queue is an `int`. -/

namespace EasyCore.DataQueue
open Function Kernel Runs Ipc

/-- `struct rt_data_item` -/
structure RtDataItem where
  dataPtr : BitVec 32
  dataSize : BitVec 32
  deriving DecidableEq

/-- `struct rt_data_queue`, without its suspend lists; the numbers are 16 bits wide. -/
structure RtDataQueue where
  size : ℕ
  lwm : ℕ
  waitingLwm : Bool
  getIndex : ℕ
  putIndex : ℕ
  queue : ℕ → RtDataItem

/-- `rt_data_queue_init` -/
def rtDataQueueInit (queue : ℕ → RtDataItem) (size lwm : ℕ) : RtDataQueue :=
  ⟨size % 2 ^ 16, lwm % 2 ^ 16, false, 0, 0, queue⟩

/-- The two suspend lists: `suspended_push_list`, `suspended_pop_list`. -/
inductive Side
  | pushers | poppers
  deriving DecidableEq

structure State (τ : Type*) where
  tasks : Tasks Side τ
  dq : RtDataQueue

variable {τ : Type*}

/-- How far a call got: it returns, a pop with the record, or it waits. -/
inductive Outcome
  | done (e : ℤ) (item : Option RtDataItem)
  | waits

section Calls
variable [DecidableEq τ]

/-- The end of `rt_data_queue_push`. -/
def dqStore (item : RtDataItem) (s : State τ) : State τ :=
  let mask := (s.dq.size + 65535) % 2 ^ 16
  { tasks := s.tasks.ipcWake .poppers
    dq := { s.dq with
      queue := update s.dq.queue (s.dq.putIndex &&& mask) item
      putIndex := (s.dq.putIndex + 1) % 2 ^ 16 } }

/-- The end of `rt_data_queue_pop`. -/
def dqFetch (s : State τ) : RtDataItem × State τ :=
  let mask := (s.dq.size + 65535) % 2 ^ 16
  let item := s.dq.queue (s.dq.getIndex &&& mask)
  let dq : RtDataQueue := { s.dq with getIndex := (s.dq.getIndex + 1) % 2 ^ 16 }
  if dq.waitingLwm ∧ (dq.putIndex : ℤ) - dq.getIndex ≤ dq.lwm then
    (item, { tasks := s.tasks.ipcWake .pushers, dq := { dq with waitingLwm := false } })
  else (item, { s with dq := dq })

/-- The caller goes to sleep; only a thread can. -/
def dqSleep (c : Option τ) (side : Side) (timeout : ℤ) (s : State τ) : Option (Outcome × State τ) :=
  c.map fun thread =>
    (.waits, { s with tasks := (s.tasks.setError thread rtEok).sleep thread side .fifo timeout })

/-- `rt_data_queue_push` up to its `rt_schedule`, or from there on. -/
def rtDataQueuePush (c : Option τ) (item : RtDataItem) (timeout : ℤ) (s : State τ) :
    Option (Outcome × State τ) :=
  if (s.dq.putIndex : ℤ) - s.dq.getIndex = s.dq.size then
    let s := { s with dq := { s.dq with waitingLwm := true } }
    if timeout = 0 then some (.done (-rtEtimeout) none, s) else dqSleep c .pushers timeout s
  else some (.done rtEok none, dqStore item s)

/-- `rt_data_queue_pop` up to its `rt_schedule`, or from there on. -/
def rtDataQueuePop (c : Option τ) (timeout : ℤ) (s : State τ) : Option (Outcome × State τ) :=
  if s.dq.getIndex = s.dq.putIndex then
    if timeout = 0 then some (.done (-rtEtimeout) none, s) else dqSleep c .poppers timeout s
  else some (.done rtEok (some (dqFetch s).1), (dqFetch s).2)

end Calls

/-! ### Runs -/

/-- A call: a push of a record, or a pop. -/
structure Call where
  item : Option RtDataItem
  timeout : ℤ

/-- What happens: a call by a thread or an interrupt handler, a thread going on after the
    `rt_schedule` of its call, and the timer of a thread. -/
inductive Op (τ : Type*)
  | call (c : Option τ) (call : Call)
  | goOn (t : τ)
  | expire (t : τ)

/-- The state, and the call that a thread is inside of. -/
structure Run (τ : Type*) where
  os : State τ
  pc : τ → Option Call

section Exec
variable [DecidableEq τ]

def Call.run (call : Call) (c : Option τ) (s : State τ) : Option (Outcome × State τ) :=
  match call.item with
  | some item => rtDataQueuePush c item call.timeout s
  | none => rtDataQueuePop c call.timeout s

/-- The caller returns or waits. -/
def Run.after (r : Run τ) (c : Option τ) (call : Call) : Outcome × State τ → Outcome × Run τ
  | (.done e item, os) => (.done e item, ⟨os, c.elim r.pc fun t => update r.pc t none⟩)
  | (.waits, os) => (.waits, ⟨os, c.elim r.pc fun t => update r.pc t (some call)⟩)

/-- One step of a run, and how far the call got in it. -/
def Run.exec (r : Run τ) : Op τ → Option (Outcome × Run τ)
  | .call c call =>
    if r.os.tasks.Free r.pc c then (call.run c r.os).map (r.after c call) else none
  | .goOn t => (r.pc t).bind fun call =>
    if r.os.tasks.stat t = .ready then
      if r.os.tasks.error t ≠ rtEok then
        some (r.after (some t) call (.done (r.os.tasks.error t) none, r.os))
      else (call.run (some t) r.os).map (r.after (some t) call)
    else none
  | .expire t => (r.os.tasks.expire t).map fun tasks =>
    (.waits, { r with os := { r.os with tasks := tasks } })

/-- The push or the pop that is tried in a step. -/
def Run.attempt (r : Run τ) : Op τ → Option Call
  | .call c call => if r.os.tasks.Free r.pc c then some call else none
  | .goOn t => (r.pc t).filter fun _ =>
    r.os.tasks.stat t = .ready ∧ r.os.tasks.error t = rtEok
  | .expire _ => none

/-- What a call returns, if it succeeds in the step. -/
def Outcome.answer : Outcome → Option (Option RtDataItem)
  | .done e item => if e = rtEok then some item else none
  | .waits => none

def Run.answer (r : Run τ) (op : Op τ) : Option (Option RtDataItem) :=
  (r.exec op).bind fun res => res.1.answer

/-! ### A data queue is a bounded queue -/

/-- A bounded queue: a push fails if it is full, a pop if it is empty. -/
def fifo (size : ℕ) (q : List RtDataItem) : Option RtDataItem →
    Option (Option RtDataItem) × List RtDataItem
  | some item => if q.length < size then (some none, q ++ [item]) else (none, q)
  | none =>
    match q with
    | [] => (none, [])
    | item :: q => (some (some item), q)

/-- What the bounded queue answers to what is tried. -/
def fifoTry (size : ℕ) (q : List RtDataItem) : Option Call →
    Option (Option RtDataItem) × List RtDataItem
  | some call => fifo size q call.item
  | none => (none, q)

/-- The records in a data queue, the oldest first. -/
def RtDataQueue.items (dq : RtDataQueue) : List RtDataItem :=
  Ring.items dq.queue dq.size (dq.getIndex % dq.size)
    ((dq.putIndex + 2 ^ 16 - dq.getIndex) % 2 ^ 16)

/-- The data queue and the bounded queue, side by side. -/
def dqStep (size : ℕ) (p : Run τ × List RtDataItem) (op : Op τ) : Run τ × List RtDataItem :=
  (((p.1.exec op).map Prod.snd).getD p.1, (fifoTry size p.2 (p.1.attempt op)).2)

/-- The call answers what the bounded queue answers, and the data queue holds its records, at most
    `size` of them. -/
structure Behaves (size : ℕ) (p : Run τ × List RtDataItem) (op : Op τ) : Prop where
  answer : p.1.answer op = (fifoTry size p.2 (p.1.attempt op)).1
  items : (dqStep size p op).1.os.dq.items = (dqStep size p op).2
  bounded : (dqStep size p op).1.os.dq.items.length ≤ size

/-- A push is not tried while `size` records lie around the end of the index range. -/
def PushInRange (p : Run τ × List RtDataItem) (op : Op τ) : Prop :=
  ((p.1.attempt op).bind Call.item).isSome →
    p.1.os.dq.putIndex + 2 ^ 16 ≠ p.1.os.dq.getIndex + p.1.os.dq.size

instance (p : Run τ × List RtDataItem) (op : Op τ) : Decidable (PushInRange p op) :=
  inferInstanceAs (Decidable (_ → _))

end Exec

/-- The data queue has room for `2 ^ k` records and holds `q`. -/
structure Holds (k : ℕ) (dq : RtDataQueue) (q : List RtDataItem) : Prop where
  size : dq.size = 2 ^ k
  le : q.length ≤ dq.size
  get : dq.getIndex < 2 ^ 16
  put : dq.putIndex = (dq.getIndex + q.length) % 2 ^ 16
  items : Ring.items dq.queue dq.size (dq.getIndex % dq.size) q.length = q

variable {k : ℕ} {dq : RtDataQueue} {q : List RtDataItem} {item : RtDataItem}

theorem init_holds (hk : k < 16) (queue : ℕ → RtDataItem) (lwm : ℕ) :
    Holds k (rtDataQueueInit queue (2 ^ k) lwm) [] := by
  have hpow : 2 ^ k < 2 ^ 16 := Nat.pow_lt_pow_right (by decide) hk
  exact ⟨Nat.mod_eq_of_lt hpow, Nat.zero_le _, Nat.two_pow_pos 16, rfl, rfl⟩

/-- The mask takes the index around the end of the array. -/
theorem mask_eq (hk : k < 16) (i : ℕ) : i &&& (2 ^ k + 65535) % 2 ^ 16 = i % 2 ^ k := by
  have hpow : 2 ^ k < 2 ^ 16 := Nat.pow_lt_pow_right (by decide) hk
  have hpos := Nat.two_pow_pos k
  rw [show (2 ^ k + 65535) % 2 ^ 16 = 2 ^ k - 1 by omega, Nat.and_two_pow_sub_one_eq_mod]

/-- An index that runs on freely, in the array. -/
theorem succ_mod (hk : k < 16) (i : ℕ) :
    (i + 1) % 2 ^ 16 % 2 ^ k = Ring.next (2 ^ k) (i % 2 ^ k) := by
  rw [Nat.mod_mod_of_dvd _ (Nat.pow_dvd_pow 2 hk.le), Ring.next_eq (Nat.mod_lt _ (Nat.two_pow_pos k)),
    Nat.mod_add_mod]

namespace Holds

theorem lt (h : Holds k dq q) (hk : k < 16) : q.length < 2 ^ 16 := by
  have hpow : 2 ^ k < 2 ^ 16 := Nat.pow_lt_pow_right (by decide) hk
  have hle := h.le
  have hsize := h.size
  omega

theorem ring (h : Holds k dq q) (hk : k < 16) :
    Ring.Ok (2 ^ k) (dq.putIndex % 2 ^ k) (dq.getIndex % 2 ^ k) q.length := by
  refine ⟨h.size ▸ h.le, Or.inl (Nat.mod_lt _ (Nat.two_pow_pos k)), ?_⟩
  rw [h.put, Nat.mod_mod_of_dvd _ (Nat.pow_dvd_pow 2 hk.le), Nat.mod_add_mod]

/-- The records are those between the indices. -/
theorem items_eq (h : Holds k dq q) (hk : k < 16) : dq.items = q := by
  have hlt := h.lt hk
  have hget := h.get
  have hcount : (dq.putIndex + 2 ^ 16 - dq.getIndex) % 2 ^ 16 = q.length := by
    rw [h.put]
    omega
  rw [RtDataQueue.items, hcount, h.items]

/-- The queue is empty if the indices are equal. -/
theorem empty_iff (h : Holds k dq q) (hk : k < 16) : dq.getIndex = dq.putIndex ↔ q = [] := by
  have hlt := h.lt hk
  have hget := h.get
  rw [← List.length_eq_zero_iff, h.put]
  omega

/-- The `int` difference tells a full queue, unless its records lie around the end of the range. -/
theorem full_iff (h : Holds k dq q) (hk : k < 16) :
    (dq.putIndex : ℤ) - dq.getIndex = dq.size
      ↔ q.length = dq.size ∧ dq.putIndex + 2 ^ 16 ≠ dq.getIndex + dq.size := by
  have hpow : 2 ^ k < 2 ^ 16 := Nat.pow_lt_pow_right (by decide) hk
  have hpos := Nat.two_pow_pos k
  have hlt := h.lt hk
  have hget := h.get
  have hle := h.le
  have hsize := h.size
  rw [h.put]
  omega

theorem around_full (h : Holds k dq q) (hk : k < 16)
    (hput : dq.putIndex + 2 ^ 16 = dq.getIndex + dq.size) : q.length = dq.size := by
  have hpow : 2 ^ k < 2 ^ 16 := Nat.pow_lt_pow_right (by decide) hk
  have hpos := Nat.two_pow_pos k
  have hlt := h.lt hk
  have hget := h.get
  have hle := h.le
  have hsize := h.size
  rw [h.put] at hput
  omega

/-- A record is stored behind the others. -/
theorem store (h : Holds k dq q) (hk : k < 16) (hroom : q.length < dq.size) (item : RtDataItem)
    (lwm : Bool) :
    Holds k { dq with
      waitingLwm := lwm
      queue := update dq.queue (dq.putIndex &&& (dq.size + 65535) % 2 ^ 16) item
      putIndex := (dq.putIndex + 1) % 2 ^ 16 } (q ++ [item]) := by
  have hput := h.put
  have hitems : Ring.items (update dq.queue (dq.putIndex % 2 ^ k) item) (2 ^ k) (dq.getIndex % 2 ^ k)
      (q.length + 1) = Ring.items dq.queue (2 ^ k) (dq.getIndex % 2 ^ k) q.length ++ [item] :=
    (h.ring hk).items_push (h.size ▸ hroom) item
  rw [← h.size, h.items] at hitems
  refine ⟨h.size, ?_, h.get, ?_, ?_⟩
  · rw [List.length_append]
    exact hroom
  · rw [List.length_append, List.length_singleton]
    dsimp only
    omega
  · rw [List.length_append, List.length_singleton]
    dsimp only
    rw [h.size, mask_eq hk, ← h.size]
    exact hitems

/-- The first record is taken. -/
theorem fetch (h : Holds k dq (item :: q)) (hk : k < 16) (lwm : Bool) :
    dq.queue (dq.getIndex &&& (dq.size + 65535) % 2 ^ 16) = item
      ∧ Holds k { dq with
        waitingLwm := lwm
        getIndex := (dq.getIndex + 1) % 2 ^ 16 } q := by
  have hput := h.put
  have hle := h.le
  rw [List.length_cons] at hput hle
  have hpop : Ring.items dq.queue (2 ^ k) (dq.getIndex % 2 ^ k) (q.length + 1)
      = dq.queue (dq.getIndex % 2 ^ k)
        :: Ring.items dq.queue (2 ^ k) (Ring.next (2 ^ k) (dq.getIndex % 2 ^ k)) q.length :=
    (h.ring hk).items_pop
  rw [← h.size, ← List.length_cons (a := item), h.items] at hpop
  obtain ⟨hitem, hrest⟩ := List.cons.inj hpop
  rw [h.size, mask_eq hk, ← h.size]
  refine ⟨hitem.symm, h.size, (Nat.le_succ _).trans hle, Nat.mod_lt _ (by decide), ?_, ?_⟩
  · dsimp only
    omega
  · dsimp only
    rw [h.size, succ_mod hk, ← h.size]
    exact hrest.symm

/-- `waiting_lwm` does not matter. -/
theorem setLwm (h : Holds k dq q) (lwm : Bool) : Holds k { dq with waitingLwm := lwm } q :=
  ⟨h.size, h.le, h.get, h.put, h.items⟩

end Holds

section Steps
variable [DecidableEq τ] {s : State τ} {r : Run τ} {c : Option τ} {call : Call} {op : Op τ}
  {timeout : ℤ}

theorem dqSleep_fails (c : Option τ) (side : Side) (timeout : ℤ) (h : Holds k s.dq q) :
    ((dqSleep c side timeout s).bind fun res => res.1.answer) = none
      ∧ Holds k (((dqSleep c side timeout s).map Prod.snd).getD s).dq q := by
  cases c with
  | none => exact ⟨rfl, h⟩
  | some thread => exact ⟨rfl, h⟩

theorem push_spec (h : Holds k s.dq q) (hk : k < 16)
    (hin : s.dq.putIndex + 2 ^ 16 ≠ s.dq.getIndex + s.dq.size) :
    ((rtDataQueuePush c item timeout s).bind fun res => res.1.answer) = (fifo (2 ^ k) q (some item)).1
      ∧ Holds k (((rtDataQueuePush c item timeout s).map Prod.snd).getD s).dq
        (fifo (2 ^ k) q (some item)).2 := by
  have hfull := h.full_iff hk
  have hle := h.le
  rw [fifo, ← h.size, rtDataQueuePush]
  obtain hlt | heq := hle.lt_or_eq
  · rw [if_pos hlt, if_neg fun hf => hlt.ne (hfull.1 hf).1]
    exact ⟨rfl, h.store hk hlt item _⟩
  · rw [if_neg heq.not_lt, if_pos (hfull.2 ⟨heq, hin⟩)]
    dsimp only
    split_ifs
    · exact ⟨rfl, h.setLwm true⟩
    · obtain ⟨hanswer, hholds⟩ := dqSleep_fails c .pushers timeout
        (s := { s with dq := { s.dq with waitingLwm := true } }) (h.setLwm true)
      refine ⟨hanswer, ?_⟩
      cases c with
      | none => exact h
      | some thread => exact hholds

theorem pop_spec (h : Holds k s.dq q) (hk : k < 16) :
    ((rtDataQueuePop c timeout s).bind fun res => res.1.answer) = (fifo (2 ^ k) q none).1
      ∧ Holds k (((rtDataQueuePop c timeout s).map Prod.snd).getD s).dq (fifo (2 ^ k) q none).2 := by
  have hempty := h.empty_iff hk
  rw [rtDataQueuePop]
  cases q with
  | nil =>
    rw [if_pos (hempty.2 rfl)]
    split_ifs
    · exact ⟨rfl, h⟩
    · exact dqSleep_fails c .poppers timeout h
  | cons item q =>
    rw [if_neg fun he => List.cons_ne_nil _ _ (hempty.1 he)]
    unfold dqFetch
    obtain ⟨hitem, hrest⟩ := h.fetch hk s.dq.waitingLwm
    obtain ⟨-, hrest'⟩ := h.fetch hk false
    dsimp only
    split_ifs
    · exact ⟨congrArg (some ∘ some) hitem, hrest'⟩
    · exact ⟨congrArg (some ∘ some) hitem, hrest⟩

/-- A call does what the bounded queue does. -/
theorem run_spec (h : Holds k s.dq q) (hk : k < 16)
    (hin : call.item.isSome → s.dq.putIndex + 2 ^ 16 ≠ s.dq.getIndex + s.dq.size) :
    ((call.run c s).bind fun res => res.1.answer) = (fifo (2 ^ k) q call.item).1
      ∧ Holds k (((call.run c s).map Prod.snd).getD s).dq (fifo (2 ^ k) q call.item).2 := by
  unfold Call.run
  split
  next item hitem =>
    rw [hitem]
    exact push_spec h hk (hin (by rw [hitem]; rfl))
  next hitem =>
    rw [hitem]
    exact pop_spec h hk

/-- A push that finds `size` records around the end of the range does not see them. -/
theorem run_overflow (h : Holds k s.dq q) (hk : k < 16) (hitem : call.item.isSome)
    (hput : s.dq.putIndex + 2 ^ 16 = s.dq.getIndex + s.dq.size) :
    ((call.run c s).bind fun res => res.1.answer) ≠ (fifo (2 ^ k) q call.item).1 := by
  obtain ⟨item, hitem⟩ := Option.isSome_iff_exists.1 hitem
  have hfull := h.around_full hk hput
  have hrun : call.run c s = some (.done rtEok none, dqStore item s) := by
    rw [Call.run, hitem]
    exact if_neg fun hf => ((h.full_iff hk).1 hf).2 hput
  rw [hrun, hitem, fifo, if_neg (by rw [hfull, h.size]; exact lt_irrefl _)]
  exact Option.some_ne_none _

@[simp] theorem after_fst (res : Outcome × State τ) : (r.after c call res).1 = res.1 := by
  obtain ⟨out, s⟩ := res
  cases out with
  | done e item => rfl
  | waits => rfl

@[simp] theorem after_os (res : Outcome × State τ) : (r.after c call res).2.os = res.2 := by
  obtain ⟨out, s⟩ := res
  cases out with
  | done e item => rfl
  | waits => rfl

/-- A step tries a call, or leaves the data queue alone and no call succeeds in it. -/
theorem exec_cases (r : Run τ) (op : Op τ) :
    (∃ c call, r.attempt op = some call
      ∧ r.answer op = (call.run c r.os).bind (fun res => res.1.answer)
      ∧ (((r.exec op).map Prod.snd).getD r).os = ((call.run c r.os).map Prod.snd).getD r.os)
    ∨ (r.attempt op = none ∧ r.answer op = none
      ∧ (((r.exec op).map Prod.snd).getD r).os.dq = r.os.dq) := by
  have hcall : ∀ (c : Option τ) (call : Call), r.exec op = (call.run c r.os).map (r.after c call) →
      r.answer op = (call.run c r.os).bind (fun res => res.1.answer)
        ∧ (((r.exec op).map Prod.snd).getD r).os = ((call.run c r.os).map Prod.snd).getD r.os := by
    intro c call hexec
    rw [Run.answer, hexec]
    cases call.run c r.os with
    | none => exact ⟨rfl, rfl⟩
    | some res => exact ⟨congrArg Outcome.answer (after_fst res), after_os res⟩
  cases op with
  | call c call =>
    by_cases hfree : r.os.tasks.Free r.pc c
    · exact Or.inl ⟨c, call, if_pos hfree, hcall c call (if_pos hfree)⟩
    · refine Or.inr ⟨if_neg hfree, ?_, ?_⟩
      · simp only [Run.answer, Run.exec, if_neg hfree, Option.bind_none]
      · simp only [Run.exec, if_neg hfree, Option.map_none, Option.getD_none]
  | goOn t =>
    cases hpc : r.pc t with
    | none =>
      refine Or.inr ⟨?_, ?_, ?_⟩
      · simp only [Run.attempt, hpc, Option.filter_none]
      · simp only [Run.answer, Run.exec, hpc, Option.bind_none]
      · simp only [Run.exec, hpc, Option.bind_none, Option.map_none, Option.getD_none]
    | some call =>
      by_cases hready : r.os.tasks.stat t = .ready
      · by_cases herr : r.os.tasks.error t = rtEok
        · refine Or.inl ⟨some t, call, ?_, hcall (some t) call ?_⟩
          · simp only [Run.attempt, hpc, Option.filter_some, hready, herr, and_self, decide_true,
              if_true]
          · simp only [Run.exec, hpc, Option.bind_some, hready, if_true, herr, ne_eq,
              not_true_eq_false, if_false]
        · refine Or.inr ⟨?_, ?_, ?_⟩
          · simp only [Run.attempt, hpc, Option.filter_some, herr, and_false, decide_false,
              Bool.false_eq_true, if_false]
          · simp only [Run.answer, Run.exec, hpc, Option.bind_some, hready, if_true, ne_eq, herr,
              not_false_eq_true, after_fst, Outcome.answer, if_false]
          · simp only [Run.exec, hpc, Option.bind_some, hready, if_true, ne_eq, herr,
              not_false_eq_true, Option.map_some, Option.getD_some, after_os]
      · refine Or.inr ⟨?_, ?_, ?_⟩
        · simp only [Run.attempt, hpc, Option.filter_some, hready, false_and, decide_false,
            Bool.false_eq_true, if_false]
        · simp only [Run.answer, Run.exec, hpc, Option.bind_some, hready, if_false, Option.bind_none]
        · simp only [Run.exec, hpc, Option.bind_some, hready, if_false, Option.map_none,
            Option.getD_none]
  | expire t =>
    refine Or.inr ⟨rfl, ?_, ?_⟩
    · cases he : r.os.tasks.expire t with
      | none => simp only [Run.answer, Run.exec, he, Option.map_none, Option.bind_none]
      | some tasks =>
        simp only [Run.answer, Run.exec, he, Option.map_some, Option.bind_some, Outcome.answer]
    · cases he : r.os.tasks.expire t with
      | none => simp only [Run.exec, he, Option.map_none, Option.getD_none]
      | some tasks => simp only [Run.exec, he, Option.map_some, Option.getD_some]

/-- A step that tries no push around the end of the range keeps the records. -/
theorem dqStep_holds {p : Run τ × List RtDataItem} (h : Holds k p.1.os.dq p.2) (hk : k < 16)
    (hin : PushInRange p op) : p.1.answer op = (fifoTry (2 ^ k) p.2 (p.1.attempt op)).1
      ∧ Holds k (dqStep (2 ^ k) p op).1.os.dq (dqStep (2 ^ k) p op).2 := by
  unfold dqStep
  obtain ⟨c, call, hattempt, hanswer, hos⟩ | ⟨hattempt, hanswer, hos⟩ := exec_cases p.1 op
  · rw [hattempt, hanswer]
    dsimp only [fifoTry]
    rw [hos]
    exact run_spec h hk fun hitem => hin (by rw [hattempt]; exact hitem)
  · rw [hattempt, hanswer]
    dsimp only [fifoTry]
    rw [hos]
    exact ⟨rfl, h⟩

theorem behaves_iff {p : Run τ × List RtDataItem} (h : Holds k p.1.os.dq p.2) (hk : k < 16) :
    Behaves (2 ^ k) p op ↔ PushInRange p op := by
  constructor
  · intro hb hitem hput
    obtain ⟨c, call, hattempt, hanswer, -⟩ | ⟨hattempt, -⟩ := exec_cases p.1 op
    · rw [hattempt] at hitem
      have hsame := hb.answer
      rw [hattempt, hanswer] at hsame
      exact run_overflow h hk hitem hput hsame
    · rw [hattempt] at hitem
      exact absurd hitem (by decide)
  · intro hin
    obtain ⟨hanswer, hholds⟩ := dqStep_holds h hk hin
    refine ⟨hanswer, hholds.items_eq hk, ?_⟩
    rw [hholds.items_eq hk]
    exact hholds.le.trans_eq hholds.size

/-- An empty data queue, and threads that are in no call. -/
structure Run.Init (r : Run τ) (size : ℕ) : Prop where
  dq : ∃ queue lwm, r.os.dq = rtDataQueueInit queue size lwm
  suspended : ∀ side, r.os.tasks.suspended side = []
  pc : ∀ t, r.pc t = none

/-- CORRECT: a data queue is a bounded queue exactly if no push is tried while it is full and its records
    lie around the end of the index range. -/
theorem behaves_of_pushInRange (hk : k < 16) (hr : r.Init (2 ^ k)) (ops : List (Op τ)) :
    Along (dqStep (2 ^ k)) (Behaves (2 ^ k)) (r, []) ops
      ↔ Along (dqStep (2 ^ k)) PushInRange (r, []) ops := by
  obtain ⟨queue, lwm, hdq⟩ := hr.dq
  refine Along.iff (I := fun p => Holds k p.1.os.dq p.2) (fun p op h => behaves_iff h hk)
    (fun p op h hin => (dqStep_holds h hk hin).2) ops ?_
  exact hdq ▸ init_holds hk queue lwm

/-- Threads that are ready, and a data queue for `2 ^ k` records. -/
def start (k : ℕ) : Run ℕ where
  os := { tasks := ⟨fun t => ⟨.ready, t, t, 0, 0, 0, 0, false, false, true⟩, fun _ => []⟩
          dq := rtDataQueueInit (fun _ => ⟨0, 0⟩) (2 ^ k) 1 }
  pc _ := none

theorem start_init (k : ℕ) : (start k).Init (2 ^ k) := ⟨⟨_, _, rfl⟩, fun _ => rfl, fun _ => rfl⟩

/-- Two threads fill the queue, a third waits in vain, a fourth until there is room. -/
theorem behaves_of_pushInRange_fill : Along (dqStep (2 ^ 1)) (Behaves (2 ^ 1)) (start 1, [])
    [.call (some 0) ⟨some ⟨7, 1⟩, -1⟩, .call (some 1) ⟨some ⟨8, 2⟩, -1⟩,
      .call (some 2) ⟨some ⟨9, 3⟩, 5⟩, .expire 2, .goOn 2, .call (some 3) ⟨some ⟨9, 4⟩, 5⟩,
      .call none ⟨none, 0⟩, .goOn 3, .call none ⟨none, 0⟩, .call none ⟨none, 0⟩] := by
  exact (behaves_of_pushInRange (by decide) (start_init 1) _).2 (by decide +kernel)

/-- A call by an interrupt handler. -/
theorem call_none_os (p : Run τ × List RtDataItem) (size : ℕ) (call : Call) :
    (dqStep size p (.call none call)).1.os
      = ((call.run none p.1.os).map Prod.snd).getD p.1.os := by
  have hexec : p.1.exec (.call none call) = (call.run none p.1.os).map (p.1.after none call) := by
    rw [Run.exec]
    exact if_pos trivial
  rw [dqStep, hexec]
  cases call.run none p.1.os with
  | none => rfl
  | some res => exact after_os res

/-- A push by an interrupt handler into a queue for one record that does not look full. -/
theorem push_indices {p : Run τ × List RtDataItem} {n m : ℕ} (hsize : p.1.os.dq.size = 1)
    (hput : p.1.os.dq.putIndex = n) (hget : p.1.os.dq.getIndex = m) (hne : (n : ℤ) - m ≠ 1)
    (item : RtDataItem) :
    ∃ p', dqStep 1 p (.call none ⟨some item, 0⟩) = p' ∧ p'.1.os.dq.size = 1
      ∧ p'.1.os.dq.putIndex = (n + 1) % 2 ^ 16 ∧ p'.1.os.dq.getIndex = m := by
  have hos := call_none_os p 1 ⟨some item, 0⟩
  have hrun : Call.run ⟨some item, 0⟩ none p.1.os = some (.done rtEok none, dqStore item p.1.os) := by
    refine if_neg ?_
    rw [hput, hget, hsize]
    exact hne
  rw [hrun] at hos
  refine ⟨_, rfl, ?_⟩
  rw [hos]
  exact ⟨hsize, hput ▸ rfl, hget⟩

/-- A record goes through the queue. -/
def round : List (Op τ) := [.call none ⟨some ⟨0, 0⟩, 0⟩, .call none ⟨none, 0⟩]

/-- With nothing in the queue both indices go on by one. -/
theorem round_indices {p : Run τ × List RtDataItem} {n : ℕ} (hsize : p.1.os.dq.size = 1)
    (hput : p.1.os.dq.putIndex = n) (hget : p.1.os.dq.getIndex = n) (hn : n + 1 < 2 ^ 16) :
    ∃ p', round.foldl (dqStep 1) p = p' ∧ p'.1.os.dq.size = 1 ∧ p'.1.os.dq.putIndex = n + 1
      ∧ p'.1.os.dq.getIndex = n + 1 := by
  obtain ⟨p₁, hp₁, hsize₁, hput₁, hget₁⟩ := push_indices hsize hput hget (by omega) ⟨0, 0⟩
  rw [Nat.mod_eq_of_lt hn] at hput₁
  have hos := call_none_os p₁ 1 ⟨none, 0⟩
  have hrun : Call.run ⟨none, 0⟩ none p₁.1.os
      = some (.done rtEok (some (dqFetch p₁.1.os).1), (dqFetch p₁.1.os).2) := by
    refine if_neg ?_
    rw [hput₁, hget₁]
    exact (Nat.succ_ne_self n).symm
  rw [hrun] at hos
  refine ⟨_, rfl, ?_⟩
  rw [round, List.foldl_cons, hp₁, List.foldl_cons, List.foldl_nil, hos]
  simp only [Option.map_some, Option.getD_some]
  unfold dqFetch
  dsimp only
  split_ifs
  · exact ⟨hsize₁, hput₁, by rw [hget₁, Nat.mod_eq_of_lt hn]⟩
  · exact ⟨hsize₁, hput₁, by rw [hget₁, Nat.mod_eq_of_lt hn]⟩

/-- `n` records go through, one after the other. -/
def rounds : ℕ → List (Op τ)
  | 0 => []
  | n + 1 => rounds n ++ round

theorem rounds_indices : ∀ {n : ℕ}, n < 2 ^ 16 →
    ∃ p, (rounds n).foldl (dqStep 1) (start 0, []) = p ∧ p.1.os.dq.size = 1
      ∧ p.1.os.dq.putIndex = n ∧ p.1.os.dq.getIndex = n
  | 0, _ => ⟨_, rfl, rfl, rfl, rfl⟩
  | n + 1, hn => by
    obtain ⟨p, hp, hsize, hput, hget⟩ := rounds_indices (n := n) (by omega)
    obtain ⟨p', hp', h'⟩ := round_indices hsize hput hget hn
    refine ⟨p', ?_, h'⟩
    rw [rounds, List.foldl_append, hp, hp']

/-- After so many rounds the indices are at the end of their range, and of two pushes into a queue for
    one record the second succeeds as well. -/
theorem not_behaves_rounds {n : ℕ} (hn : n + 1 = 2 ^ 16) : ¬ Along (dqStep 1) (Behaves 1) (start 0, [])
    (rounds n ++ [.call none ⟨some ⟨1, 0⟩, 0⟩, .call none ⟨some ⟨2, 0⟩, 0⟩]) := by
  intro h
  obtain ⟨p, hp, hsize, hput, hget⟩ := rounds_indices (n := n) (by omega)
  rw [along_append, hp] at h
  obtain ⟨-, -, hsecond, -⟩ := h
  obtain ⟨p₁, hp₁, hsize₁, hput₁, hget₁⟩ := push_indices hsize hput hget (by omega) ⟨1, 0⟩
  rw [hn, Nat.mod_self] at hput₁
  obtain ⟨p₂, hp₂, -, hput₂, hget₂⟩ := push_indices hsize₁ hput₁ hget₁ (by omega) ⟨2, 0⟩
  have hbound := hsecond.bounded
  rw [hp₁, hp₂, RtDataQueue.items, Ring.length_items, hput₂, hget₂] at hbound
  omega

theorem not_behaves_of_around : ¬ Along (dqStep 1) (Behaves 1) (start 0, [])
    (rounds 65535 ++ [.call none ⟨some ⟨1, 0⟩, 0⟩, .call none ⟨some ⟨2, 0⟩, 0⟩]) :=
  not_behaves_rounds rfl

end Steps

end EasyCore.DataQueue
