import EasyCore.Kernel.SchedInv

/-! The threads as the IPC objects see them: the thread records and the suspend lists, without the
    ready lists, the bitmap and the running thread. Every function of the kernel that the IPC
    objects call has its counterpart here. -/

namespace EasyCore.Ipc
open Function EasyCore.Links EasyCore.Kernel

/-- The thread records and the list of the threads suspended on each object. -/
structure Tasks (κ τ : Type*) where
  thread : τ → Thread
  suspended : κ → List τ

variable {κ τ : Type*}

def rtEfull : ℤ := 3

/-- `timeout` and `tick_delta` after a wait: `int32_t` less `uint32_t`. -/
def adjust (timeout : ℤ) (tickDelta tick : ℕ) : ℤ × ℕ :=
  if timeout > 0 then
    let tickDelta : ℕ := (tick + 2 ^ 32 - tickDelta) % 2 ^ 32
    let timeout := (timeout - tickDelta).bmod (2 ^ 32)
    (if timeout < 0 then 0 else timeout, tickDelta)
  else (timeout, tickDelta)

/-- Put `t` in front of the first waiter less urgent than it (`RT_IPC_FLAG_PRIO`). -/
def insertPrio (prio : τ → ℕ) (t : τ) : List τ → List τ
  | [] => [t]
  | u :: l => if prio t < prio u then t :: u :: l else u :: insertPrio prio t l

/-- Put `t` into a suspend list. -/
def insertWaiter (flag : IpcFlag) (prio : τ → ℕ) (t : τ) (l : List τ) : List τ :=
  match flag with
  | .fifo => l ++ [t]
  | .prio => insertPrio prio t l

namespace Tasks
variable [DecidableEq κ] [DecidableEq τ] (s : Tasks κ τ) (t : τ)

/-- The state, the error number and the priorities of a thread. -/
def stat (s : Tasks κ τ) (t : τ) : Stat := (s.thread t).stat
def error (s : Tasks κ τ) (t : τ) : ℤ := (s.thread t).error
def prio (s : Tasks κ τ) (t : τ) : ℕ := (s.thread t).currentPriority
def initPrio (s : Tasks κ τ) (t : τ) : ℕ := (s.thread t).initPriority

/-- Store into a thread. -/
def modThread (f : Thread → Thread) : Tasks κ τ :=
  { s with thread := update s.thread t (f (s.thread t)) }

/-- `thread->error = e`. -/
def setError (e : ℤ) : Tasks κ τ := s.modThread t fun th => { th with error := e }

/-- `rt_timer_control` and `rt_timer_start` on `thread_timer`. -/
def timerStart : Tasks κ τ := s.modThread t fun th => { th with timer := true }

/-- `rt_thread_suspend`. -/
def suspend : Tasks κ τ :=
  if s.stat t ≠ .ready then s else s.modThread t fun th => { th with stat := .suspend }

/-- `rt_thread_resume`. -/
def resume : Tasks κ τ :=
  if s.stat t ≠ .suspend then s
  else { (s.modThread t fun th => { th with stat := .ready, timer := false }) with
    suspended := without s.suspended t }

/-- `rt_thread_timeout`, called by the timer of the thread. -/
def timeout : Option (Tasks κ τ) :=
  if s.stat t = .suspend then
    some { (s.modThread t fun th => { th with error := -rtEtimeout, stat := .ready }) with
      suspended := without s.suspended t }
  else none

/-- `rt_timer_check` on the running one-shot timer of a thread. -/
def expire : Option (Tasks κ τ) :=
  if (s.thread t).timer then
    (s.timeout t).map fun s => s.modThread t fun th => { th with timer := false }
  else none

/-- `RT_THREAD_CTRL_CHANGE_PRIORITY`. -/
def changePriority (pmax arg : ℕ) : Tasks κ τ :=
  s.modThread t fun th => Thread.calcMask pmax { th with currentPriority := arg }

/-- `rt_ipc_list_suspend`. -/
def ipcSuspend (k : κ) (flag : IpcFlag) : Tasks κ τ :=
  { s.suspend t with
    suspended := update s.suspended k (insertWaiter flag s.prio t (s.suspended k)) }

/-- `rt_thread_suspend` and `rt_list_insert_after` on a suspend list. -/
def suspendFront (k : κ) : Tasks κ τ :=
  { s.suspend t with suspended := update s.suspended k (t :: s.suspended k) }

/-- Start the timer of a thread that waits for a limited time only. -/
def startTimer (time : ℤ) : Tasks κ τ := if time > 0 then s.timerStart t else s

/-- `rt_ipc_list_suspend` and the timer of the thread: it waits on an object for `time`. -/
def sleep (k : κ) (flag : IpcFlag) (time : ℤ) : Tasks κ τ :=
  (s.ipcSuspend t k flag).startTimer t time

/-- `rt_ipc_list_resume`. -/
def ipcResume (k : κ) : Option (Tasks κ τ) := (s.suspended k).head?.map s.resume

/-- `rt_ipc_list_resume`, unless nobody waits. -/
def ipcWake (k : κ) : Tasks κ τ := (s.ipcResume k).getD s

/-- `rt_ipc_list_resume_all`. -/
def ipcResumeAll (k : κ) : Tasks κ τ :=
  (s.suspended k).foldl (fun s t => (s.setError t (-rtError)).resume t) s

end Tasks

section Insert
variable {t u : τ}

theorem mem_insertPrio {prio : τ → ℕ} {l : List τ} : u ∈ insertPrio prio t l ↔ u = t ∨ u ∈ l := by
  induction l with
  | nil => simp [insertPrio]
  | cons v l ih =>
    rw [insertPrio]
    split
    · simp
    · simp only [List.mem_cons, ih]
      tauto

@[simp] theorem mem_insertWaiter {flag : IpcFlag} {prio : τ → ℕ} {l : List τ} :
    u ∈ insertWaiter flag prio t l ↔ u = t ∨ u ∈ l := by
  cases flag with
  | fifo => simp [insertWaiter, or_comm]
  | prio => exact mem_insertPrio

theorem insertPrio_perm (prio : τ → ℕ) (t : τ) : ∀ l, (insertPrio prio t l).Perm (t :: l)
  | [] => .refl _
  | u :: l => by
    rw [insertPrio]
    split
    · exact .refl _
    · exact ((insertPrio_perm prio t l).cons u).trans (.swap t u l)

theorem insertWaiter_perm (flag : IpcFlag) (prio : τ → ℕ) (t : τ) (l : List τ) :
    (insertWaiter flag prio t l).Perm (t :: l) := by
  cases flag with
  | fifo => exact List.perm_append_singleton t l
  | prio => exact insertPrio_perm prio t l

/-- The place found by `rt_ipc_list_suspend` is the place of the list insertion. -/
theorem insertPrio_split {prio : τ → ℕ} {b : List τ} (hb : ∀ u ∈ b.head?, prio t < prio u) :
    ∀ {a : List τ}, (∀ u ∈ a, prio u ≤ prio t) → insertPrio prio t (a ++ b) = a ++ t :: b
  | [], _ => by
    cases b with
    | nil => rfl
    | cons u b => exact if_pos (hb u rfl)
  | u :: a, ha => by
    have hu := ha u List.mem_cons_self
    rw [List.cons_append, insertPrio, if_neg (by omega),
      insertPrio_split hb fun v hv => ha v (List.mem_cons_of_mem u hv)]
    rfl

end Insert

/-! ### The fields after each function -/

section Fields
variable [DecidableEq τ] {s s' : Tasks κ τ} {t : τ} {k : κ}

theorem modThread_fields (f : Thread → Thread) : (s.modThread t f).suspended = s.suspended ∧
    (s.modThread t f).stat = update s.stat t (f (s.thread t)).stat ∧
    (s.modThread t f).error = update s.error t (f (s.thread t)).error ∧
    (s.modThread t f).prio = update s.prio t (f (s.thread t)).currentPriority ∧
    (s.modThread t f).initPrio = update s.initPrio t (f (s.thread t)).initPriority := by
  refine ⟨rfl, ?_, ?_, ?_, ?_⟩ <;> funext u <;> by_cases hu : u = t <;>
    simp [Tasks.stat, Tasks.error, Tasks.prio, Tasks.initPrio, Tasks.modThread, hu]

@[simp] theorem setError_fields (e : ℤ) : (s.setError t e).suspended = s.suspended ∧
    (s.setError t e).stat = s.stat ∧ (s.setError t e).error = update s.error t e ∧
    (s.setError t e).prio = s.prio ∧ (s.setError t e).initPrio = s.initPrio := by
  obtain ⟨hs, ht, he, hp, hi⟩ := modThread_fields (s := s) (t := t) fun th => { th with error := e }
  exact ⟨hs, ht.trans (update_eq_self t _), he, hp.trans (update_eq_self t _),
    hi.trans (update_eq_self t _)⟩

@[simp] theorem setError_setError (e e' : ℤ) :
    (s.setError t e).setError t e' = s.setError t e' := by
  simp [Tasks.setError, Tasks.modThread]

@[simp] theorem startTimer_fields (time : ℤ) : (s.startTimer t time).suspended = s.suspended ∧
    (s.startTimer t time).stat = s.stat ∧ (s.startTimer t time).error = s.error ∧
    (s.startTimer t time).prio = s.prio ∧ (s.startTimer t time).initPrio = s.initPrio := by
  unfold Tasks.startTimer
  split
  · obtain ⟨hs, ht, he, hp, hi⟩ :=
      modThread_fields (s := s) (t := t) fun th => { th with timer := true }
    exact ⟨hs, ht.trans (update_eq_self t _), he.trans (update_eq_self t _),
      hp.trans (update_eq_self t _), hi.trans (update_eq_self t _)⟩
  · exact ⟨rfl, rfl, rfl, rfl, rfl⟩

@[simp] theorem changePriority_fields (pmax arg : ℕ) :
    (s.changePriority t pmax arg).suspended = s.suspended ∧
    (s.changePriority t pmax arg).stat = s.stat ∧
    (s.changePriority t pmax arg).error = s.error ∧
    (s.changePriority t pmax arg).prio = update s.prio t arg ∧
    (s.changePriority t pmax arg).initPrio = s.initPrio := by
  obtain ⟨hs, ht, he, hp, hi⟩ := modThread_fields (s := s) (t := t)
    fun th => Thread.calcMask pmax { th with currentPriority := arg }
  simp only [Thread.calcMask_same] at ht he hp hi
  exact ⟨hs, ht.trans (update_eq_self t _), he.trans (update_eq_self t _), hp,
    hi.trans (update_eq_self t _)⟩

theorem suspend_fields (h : s.stat t = .ready) : (s.suspend t).stat = update s.stat t .suspend ∧
    (s.suspend t).error = s.error ∧ (s.suspend t).prio = s.prio ∧
    (s.suspend t).initPrio = s.initPrio := by
  obtain ⟨-, ht, he, hp, hi⟩ :=
    modThread_fields (s := s) (t := t) fun th => { th with stat := .suspend }
  rw [Tasks.suspend, if_neg (not_not.2 h)]
  exact ⟨ht, he.trans (update_eq_self t _), hp.trans (update_eq_self t _),
    hi.trans (update_eq_self t _)⟩

/-- A waiting thread is made ready by `rt_thread_resume`. -/
theorem resume_fields (h : s.stat t = .suspend) : (s.resume t).suspended = without s.suspended t ∧
    (s.resume t).stat = update s.stat t .ready ∧ (s.resume t).error = s.error ∧
    (s.resume t).prio = s.prio ∧ (s.resume t).initPrio = s.initPrio := by
  obtain ⟨-, ht, he, hp, hi⟩ :=
    modThread_fields (s := s) (t := t) fun th => { th with stat := .ready, timer := false }
  rw [Tasks.resume, if_neg (not_not.2 h)]
  exact ⟨rfl, ht, he.trans (update_eq_self t _), hp.trans (update_eq_self t _),
    hi.trans (update_eq_self t _)⟩

/-- A waiting thread is made ready by its timer. -/
theorem expire_fields (h : s.expire t = some s') : s.stat t = .suspend ∧
    s'.suspended = without s.suspended t ∧ s'.stat = update s.stat t .ready ∧
    s'.error = update s.error t (-rtEtimeout) ∧ s'.prio = s.prio ∧ s'.initPrio = s.initPrio := by
  obtain ⟨-, h⟩ := Option.ite_none_right_eq_some.1 h
  obtain ⟨s₁, h₁, rfl⟩ := Option.map_eq_some_iff.1 h
  obtain ⟨hst, h₁⟩ := Option.ite_none_right_eq_some.1 h₁
  obtain ⟨-, ht, he, hp, hi⟩ := modThread_fields (s := s) (t := t)
    fun th => { th with error := -rtEtimeout, stat := .ready }
  obtain ⟨-, ht₁, he₁, hp₁, hi₁⟩ :=
    modThread_fields (s := s₁) (t := t) fun th => { th with timer := false }
  obtain rfl := Option.some.inj h₁
  exact ⟨hst, rfl, ht₁.trans ((update_eq_self t _).trans ht), he₁.trans ((update_eq_self t _).trans he),
    hp₁.trans ((update_eq_self t _).trans (hp.trans (update_eq_self t _))),
    hi₁.trans ((update_eq_self t _).trans (hi.trans (update_eq_self t _)))⟩

variable [DecidableEq κ]

/-- A ready thread goes to sleep by `rt_ipc_list_suspend`. -/
theorem ipcSuspend_fields (h : s.stat t = .ready) (flag : IpcFlag) :
    (s.ipcSuspend t k flag).suspended =
      update s.suspended k (insertWaiter flag s.prio t (s.suspended k)) ∧
    (s.ipcSuspend t k flag).stat = update s.stat t .suspend ∧
    (s.ipcSuspend t k flag).error = s.error ∧ (s.ipcSuspend t k flag).prio = s.prio ∧
    (s.ipcSuspend t k flag).initPrio = s.initPrio :=
  ⟨rfl, suspend_fields h⟩

theorem sleep_fields (h : s.stat t = .ready) (flag : IpcFlag) (time : ℤ) :
    (s.sleep t k flag time).suspended =
      update s.suspended k (insertWaiter flag s.prio t (s.suspended k)) ∧
    (s.sleep t k flag time).stat = update s.stat t .suspend ∧
    (s.sleep t k flag time).error = s.error ∧ (s.sleep t k flag time).prio = s.prio ∧
    (s.sleep t k flag time).initPrio = s.initPrio := by
  simpa only [Tasks.sleep, startTimer_fields] using ipcSuspend_fields h flag

theorem suspendFront_fields (h : s.stat t = .ready) :
    (s.suspendFront t k).suspended = update s.suspended k (t :: s.suspended k) ∧
    (s.suspendFront t k).stat = update s.stat t .suspend ∧
    (s.suspendFront t k).error = s.error ∧ (s.suspendFront t k).prio = s.prio ∧
    (s.suspendFront t k).initPrio = s.initPrio :=
  ⟨rfl, suspend_fields h⟩

end Fields

end EasyCore.Ipc
