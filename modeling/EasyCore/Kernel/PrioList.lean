import EasyCore.Kernel.MutexRun
import EasyCore.Kernel.Sem
import EasyCore.Lib.Keyed

/-! The order of the suspend lists (`RT_IPC_FLAG_PRIO`).

    `rt_ipc_list_suspend` puts a thread in by its priority, behind those as urgent as itself. Later
    `rt_thread_control` may give a waiter another priority, called by any thread or for the owner of
    a mutex; it moves a ready thread to the list of its new priority, but leaves a waiter where it
    is. A run here is what the calls of all objects do to the threads and the lists; each thread
    bears the number of its last arrival on a list. -/

namespace EasyCore.Ipc.PrioList
open Function EasyCore.Links EasyCore.Kernel EasyCore.Runs EasyCore.Keyed

variable {κ τ : Type*}

/-- What the calls do to the threads and the lists. -/
inductive Op (κ τ : Type*)
  /-- `rt_ipc_list_suspend` and the timer of the thread. -/
  | suspend (t : τ) (k : κ) (time : ℤ)
  /-- `rt_ipc_list_resume`. -/
  | resume (k : κ)
  /-- `rt_ipc_list_resume_all`. -/
  | resumeAll (k : κ)
  /-- `rt_thread_resume`; `rt_event_send` picks the waiters that it serves. -/
  | resumeThread (t : τ)
  /-- `rt_thread_timeout`. -/
  | expire (t : τ)
  /-- `rt_thread_control` with `RT_THREAD_CTRL_CHANGE_PRIORITY`, as in `rt_mutex_take` and
      `rt_mutex_release`. -/
  | control (t : τ) (arg : ℕ)
  /-- `thread->error = e`. -/
  | error (t : τ) (e : ℤ)

/-- The threads and the lists, and the numbers of the arrivals. -/
structure Run (κ τ : Type*) where
  tasks : Tasks κ τ
  arrived : τ → ℕ
  clock : ℕ

section Exec
variable [DecidableEq κ] [DecidableEq τ] (flag : κ → IpcFlag) (pmax : ℕ)

def Run.setTasks (r : Run κ τ) (tasks : Tasks κ τ) : Run κ τ := { r with tasks := tasks }

/-- A thread arrives on a list. -/
def Run.sleep (r : Run κ τ) (t : τ) (k : κ) (time : ℤ) : Run κ τ where
  tasks := r.tasks.sleep t k (flag k) time
  arrived := update r.arrived t r.clock
  clock := r.clock + 1

/-- One step of a run; only a ready thread goes to sleep. -/
def Run.exec (r : Run κ τ) : Op κ τ → Option (Run κ τ)
  | .suspend t k time =>
    if r.tasks.stat t = .ready then some (r.sleep flag t k time) else none
  | .resume k => (r.tasks.ipcResume k).map r.setTasks
  | .resumeAll k => some (r.setTasks (r.tasks.ipcResumeAll k))
  | .resumeThread t => some (r.setTasks (r.tasks.resume t))
  | .expire t => (r.tasks.expire t).map r.setTasks
  | .control t arg => some (r.setTasks (r.tasks.changePriority t pmax arg))
  | .error t e => some (r.setTasks (r.tasks.setError t e))

/-- The runs of any number of threads on the lists of any number of objects. -/
def system : System (Run κ τ) (Op κ τ) where
  init r := ∀ k, r.tasks.suspended k = []
  step r op r' := r.exec flag pmax op = some r'

end Exec

/-! ### The order -/

/-- The current priority, then the arrival. -/
def Run.key (r : Run κ τ) (t : τ) : ℕ ×ₗ ℕ := toLex (r.tasks.prio t, r.arrived t)

/-- Each list of an object with `RT_IPC_FLAG_PRIO` is ordered by current priority, and by arrival
    among equals. -/
def Run.Sorted (flag : κ → IpcFlag) (r : Run κ τ) : Prop :=
  ∀ k, flag k = .prio → Ordered r.key (r.tasks.suspended k)

/-- The thread that `rt_ipc_list_resume` takes is a most urgent one. -/
def Run.WakesUrgent (flag : κ → IpcFlag) (r : Run κ τ) : Prop :=
  ∀ k, flag k = .prio → ∀ t ∈ (r.tasks.suspended k).head?, ∀ u ∈ r.tasks.suspended k,
    r.tasks.prio t ≤ r.tasks.prio u

/-- A waiter that gets another priority passes no other waiter of its list. -/
def Run.KeepsPlace (flag : κ → IpcFlag) (r : Run κ τ) : Op κ τ → Prop
  | .control t arg => ∀ k, flag k = .prio → t ∈ r.tasks.suspended k →
      ∀ u ∈ r.tasks.suspended k, u ≠ t → (r.key u < r.key t ↔ r.key u < toLex (arg, r.arrived t))
  | _ => True

theorem key_lt {r : Run κ τ} {t u : τ} : r.key t < r.key u ↔
    r.tasks.prio t < r.tasks.prio u ∨
      r.tasks.prio t = r.tasks.prio u ∧ r.arrived t < r.arrived u := by
  simp [Run.key, Prod.Lex.toLex_lt_toLex]

theorem Run.Sorted.wakesUrgent {flag : κ → IpcFlag} {r : Run κ τ} (h : r.Sorted flag) :
    r.WakesUrgent flag := by
  intro k hk t ht u hu
  obtain ⟨l, hl⟩ := List.head?_eq_some_iff.1 ht
  have hle := (hl ▸ h k hk).head_le (hl ▸ hu)
  rcases hle.lt_or_eq with hlt | heq
  · rcases key_lt.1 hlt with hlt | ⟨heq, -⟩
    · exact hlt.le
    · exact heq.le
  · exact (congrArg (fun x => (ofLex x).1) heq).le

/-- The place found among the waiters is the one of the key. -/
theorem insertPrio_eq {prio : τ → ℕ} (key : τ → ℕ ×ₗ ℕ) {t : τ} {l : List τ}
    (h : ∀ u ∈ l, (key t < key u ↔ prio t < prio u)) :
    insertPrio prio t l = l.orderedInsert (fun a b => key a < key b) t := by
  induction l with
  | nil => rfl
  | cons u l ih =>
    rw [insertPrio, List.orderedInsert_cons, ih fun v hv => h v (List.mem_cons_of_mem u hv)]
    simp only [h u List.mem_cons_self]

/-! ### The invariant -/

section Invariant
variable [DecidableEq τ] {flag : κ → IpcFlag} {pmax : ℕ} {r r' : Run κ τ}
  {t u : τ} {k : κ} {op : Op κ τ}

/-- The lists are ordered, each waiter waits on its list only, and no two waiters of a list have
    the same arrival. -/
structure Inv (flag : κ → IpcFlag) (r : Run κ τ) : Prop where
  waiting : ∃ pc, Waiting r.tasks pc
  before : ∀ {k t}, t ∈ r.tasks.suspended k → r.arrived t < r.clock
  apart : ∀ {k t u}, t ∈ r.tasks.suspended k → u ∈ r.tasks.suspended k →
    r.arrived t = r.arrived u → t = u
  sorted : r.Sorted flag

namespace Inv

omit [DecidableEq τ] in
/-- Threads leave their lists, and nobody's priority changes. -/
theorem shrink {tasks : Tasks κ τ} (i : Inv flag r) (hw : ∃ pc, Waiting tasks pc)
    (hs : ∀ k, (tasks.suspended k).Sublist (r.tasks.suspended k)) (hp : tasks.prio = r.tasks.prio) :
    Inv flag (r.setTasks tasks) := by
  refine ⟨hw, fun {k t} ht => i.before ((hs k).subset ht), fun {k t u} ht hu => ?_, fun k hk => ?_⟩
  · exact i.apart ((hs k).subset ht) ((hs k).subset hu)
  · have hkey : (r.setTasks tasks).key = r.key := by
      funext t
      simp only [Run.key, Run.setTasks, hp]
    rw [hkey]
    exact (i.sorted k hk).sublist (hs k)

/-- A thread that is taken off its list and made ready. -/
theorem wake {tasks : Tasks κ τ} (i : Inv flag r) (hs : tasks.suspended = without r.tasks.suspended t)
    (ht : tasks.stat = update r.tasks.stat t .ready) (hp : tasks.prio = r.tasks.prio) :
    Inv flag (r.setTasks tasks) := by
  obtain ⟨pc, w⟩ := i.waiting
  refine i.shrink ⟨pc, w.wake hs ht⟩ (fun k => ?_) hp
  rw [hs]
  exact List.erase_sublist

theorem resume (i : Inv flag r) (h : r.tasks.stat t = .suspend) :
    Inv flag (r.setTasks (r.tasks.resume t)) := by
  obtain ⟨hs, ht, -, hp, -⟩ := resume_fields h
  exact i.wake hs ht hp

/-- A new priority of `t` keeps the lists ordered iff `t` keeps its place. -/
theorem sorted_control_iff (i : Inv flag r) (arg : ℕ) :
    (r.setTasks (r.tasks.changePriority t pmax arg)).Sorted flag ↔
      r.KeepsPlace flag (.control t arg) := by
  obtain ⟨hs, -, -, hp, -⟩ := changePriority_fields (s := r.tasks) (t := t) pmax arg
  have hkey : (r.setTasks (r.tasks.changePriority t pmax arg)).key =
      update r.key t (toLex (arg, r.arrived t)) := by
    funext u
    by_cases hu : u = t
    · subst hu
      simp only [Run.key, Run.setTasks, hp, update_self]
    · simp only [Run.key, Run.setTasks, hp, update_of_ne hu]
  refine forall_congr' fun k => forall_congr' fun hk => ?_
  rw [hkey]
  show Ordered _ ((r.tasks.changePriority t pmax arg).suspended k) ↔ _
  rw [hs]
  by_cases ht : t ∈ r.tasks.suspended k
  · have hne : ∀ u ∈ r.tasks.suspended k, u ≠ t → r.key u ≠ toLex (arg, r.arrived t) := by
      intro u hu hut he
      exact hut (i.apart hu ht (congrArg (fun x => (ofLex x).2) he))
    rw [(i.sorted k hk).update_iff ht hne]
    exact ⟨fun h _ => h, fun h => h ht⟩
  · refine iff_of_true ((i.sorted k hk).congr fun u hu => ?_) fun h => absurd h ht
    exact update_of_ne (fun e : u = t => ht (e ▸ hu)) ..

theorem control (i : Inv flag r) {arg : ℕ} (hok : r.KeepsPlace flag (.control t arg)) :
    Inv flag (r.setTasks (r.tasks.changePriority t pmax arg)) := by
  obtain ⟨hs, ht, -⟩ := changePriority_fields (s := r.tasks) (t := t) pmax arg
  obtain ⟨pc, w⟩ := i.waiting
  refine ⟨⟨pc, w.congr hs ht⟩, fun {k u} hu => ?_, fun {k u v} hu hv => ?_,
    (i.sorted_control_iff arg).2 hok⟩
  · exact i.before (hs ▸ hu : u ∈ r.tasks.suspended k)
  · exact i.apart (hs ▸ hu : u ∈ r.tasks.suspended k) (hs ▸ hv : v ∈ r.tasks.suspended k)

variable [DecidableEq κ]

theorem resumeAll (i : Inv flag r) (k : κ) : Inv flag (r.setTasks (r.tasks.ipcResumeAll k)) := by
  obtain ⟨pc, w⟩ := i.waiting
  obtain ⟨hs, -, -, hp, -, w'⟩ := w.ipcResumeAll_fields k
  refine i.shrink ⟨pc, w'⟩ (fun k' => ?_) hp
  rw [hs]
  by_cases hk : k' = k
  · rw [hk, update_self]
    exact List.nil_sublist _
  · rw [update_of_ne hk]

/-- The last to arrive is put in behind those as urgent as itself. -/
theorem suspend (i : Inv flag r) (hr : r.tasks.stat t = .ready) (k : κ) (time : ℤ) :
    Inv flag (r.sleep flag t k time) := by
  obtain ⟨pc, w⟩ := i.waiting
  obtain ⟨hs, -, -, hp, -⟩ := sleep_fields (k := k) hr (flag k) time
  have hnot := w.not_mem hr
  have hother : ∀ {k' u}, u ∈ r.tasks.suspended k' → update r.arrived t r.clock u = r.arrived u :=
    fun {k' u} hu => update_of_ne (fun e : u = t => hnot k' (e ▸ hu)) ..
  -- a waiter is the new one or was one before
  have hmem : ∀ {k' u}, u ∈ update r.tasks.suspended k
      (insertWaiter (flag k) r.tasks.prio t (r.tasks.suspended k)) k' →
      u = t ∨ u ∈ r.tasks.suspended k' := by
    intro k' u hu
    by_cases hk : k' = k
    · subst hk
      rw [update_self] at hu
      exact mem_insertWaiter.1 hu
    · rw [update_of_ne hk] at hu
      exact Or.inr hu
  refine ⟨⟨_, w.sleep hr (flag k) time⟩, fun {k' u} hu => ?_, fun {k' u v} hu hv he => ?_,
    fun k' hk' => ?_⟩
  · show update r.arrived t r.clock u < r.clock + 1
    rcases hmem (hs ▸ hu) with rfl | hu
    · rw [update_self]; omega
    · rw [hother hu]
      exact (i.before hu).trans (Nat.lt_succ_self _)
  · replace he : update r.arrived t r.clock u = update r.arrived t r.clock v := he
    rcases hmem (hs ▸ hu) with hut | hu' <;> rcases hmem (hs ▸ hv) with hvt | hv'
    · rw [hut, hvt]
    · rw [hut, update_self, hother hv'] at he
      exact absurd he.symm (i.before hv').ne
    · rw [hvt, update_self, hother hu'] at he
      exact absurd he (i.before hu').ne
    · rw [hother hu', hother hv'] at he
      exact i.apart hu' hv' he
  · show Ordered _ ((r.tasks.sleep t k (flag k) time).suspended k')
    rw [hs]
    have hkey : ∀ {u}, u ∈ r.tasks.suspended k' → (r.sleep flag t k time).key u = r.key u := by
      intro u hu
      simp only [Run.key, Run.sleep, hp, hother hu]
    have hself : (r.sleep flag t k time).key t = toLex (r.tasks.prio t, r.clock) := by
      simp only [Run.key, Run.sleep, hp, update_self]
    have hold := (i.sorted k' hk').congr fun u hu => hkey hu
    by_cases hk : k' = k
    · subst hk
      rw [update_self, hk', insertWaiter, insertPrio_eq (r.sleep flag t k' time).key]
      · refine hold.insert fun u hu he => ?_
        rw [hkey hu, hself] at he
        exact (i.before hu).ne (congrArg (fun x => (ofLex x).2) he)
      · intro u hu
        have hb := i.before hu
        rw [hkey hu, hself, Run.key, Prod.Lex.toLex_lt_toLex]
        omega
    · rwa [update_of_ne hk]

/-- One lemma for the steps: the invariant is kept, and a step keeps the order iff it moves no
    waiter past another. -/
theorem step (i : Inv flag r) (hok : r.KeepsPlace flag op) (h : r.exec flag pmax op = some r') :
    Inv flag r' := by
  cases op with
  | suspend t k time =>
    obtain ⟨hr, h⟩ := Option.ite_none_right_eq_some.1 h
    obtain rfl := Option.some.inj h
    exact i.suspend hr k time
  | resume k =>
    obtain ⟨tasks, hk, rfl⟩ := Option.map_eq_some_iff.1 h
    obtain ⟨t, ht, rfl⟩ := Option.map_eq_some_iff.1 hk
    obtain ⟨pc, w⟩ := i.waiting
    exact i.resume (w.mem (List.mem_of_head? ht)).2
  | resumeAll k =>
    obtain rfl := Option.some.inj h
    exact i.resumeAll k
  | resumeThread t =>
    obtain rfl := Option.some.inj h
    by_cases hs : r.tasks.stat t = .suspend
    · exact i.resume hs
    · rw [Tasks.resume, if_pos hs]
      exact i
  | expire t =>
    obtain ⟨tasks, ht, rfl⟩ := Option.map_eq_some_iff.1 h
    obtain ⟨-, hs, hst, -, hp, -⟩ := expire_fields ht
    exact i.wake hs hst hp
  | control t arg =>
    obtain rfl := Option.some.inj h
    exact i.control hok
  | error t e =>
    obtain rfl := Option.some.inj h
    obtain ⟨hs, ht, -, hp, -⟩ := setError_fields (s := r.tasks) (t := t) e
    obtain ⟨pc, w⟩ := i.waiting
    exact i.shrink ⟨pc, w.congr hs ht⟩ (fun k => by rw [hs]) hp

/-- A step keeps the order iff it moves no waiter past another. -/
theorem sorted_iff (i : Inv flag r) (h : r.exec flag pmax op = some r') :
    r'.Sorted flag ↔ r.KeepsPlace flag op := by
  cases op with
  | control t arg =>
    obtain rfl := Option.some.inj h
    exact i.sorted_control_iff arg
  | suspend | resume | resumeAll | resumeThread | expire | error =>
    exact iff_of_true (i.step (by exact trivial) h).sorted trivial

end Inv

variable [DecidableEq κ]

theorem init_inv (hi : (system flag pmax).init r) : Inv flag r where
  waiting := ⟨fun _ => none, .empty hi fun _ => rfl⟩
  before ht := by simp [hi _] at ht
  apart ht := by simp [hi _] at ht
  sorted k _ := by
    rw [hi k]
    exact .nil

/-- CORRECT: in every run in which no new priority moves a waiter past another, the lists stay
    ordered and a most urgent waiter is taken; and the next step keeps the order exactly if it
    moves none either. -/
theorem sorted_of_keepsPlace (h : Reach (system flag pmax) (Run.KeepsPlace flag) r) :
    r.Sorted flag ∧ r.WakesUrgent flag ∧
      ∀ op r', r.exec flag pmax op = some r' → (r'.Sorted flag ↔ r.KeepsPlace flag op) := by
  have i : Inv flag r := h.invariant (fun _ => init_inv) fun _ _ _ i hok hst => i.step hok hst
  exact ⟨i.sorted, i.sorted.wakesUrgent, fun _ _ hst => i.sorted_iff hst⟩

end Invariant

/-! ### The runs of the objects -/

section Objects
variable [DecidableEq κ] [DecidableEq τ] {flag : κ → IpcFlag} {pmax : ℕ} {tasks tasks' : Tasks κ τ}
  {t u : τ} {k : κ}

/-- What the calls of the objects make of the threads and the lists is what a run here does. -/
def Reached (flag : κ → IpcFlag) (pmax : ℕ) (tasks : Tasks κ τ) : Prop :=
  ∃ r : Run κ τ, Reachable (system flag pmax) r ∧ r.tasks = tasks

/-- One more step. -/
theorem Reached.exec (h : Reached flag pmax tasks) (op : Op κ τ)
    (he : ∀ r : Run κ τ, r.tasks = tasks → ∃ r', r.exec flag pmax op = some r' ∧ r'.tasks = tasks') :
    Reached flag pmax tasks' := by
  obtain ⟨r, hr, ht⟩ := h
  obtain ⟨r', hst, ht'⟩ := he r ht
  exact ⟨r', hr.step trivial hst, ht'⟩

theorem Reached.setError (h : Reached flag pmax tasks) (t : τ) (e : ℤ) :
    Reached flag pmax (tasks.setError t e) :=
  h.exec (.error t e) fun r ht => ⟨_, rfl, by rw [← ht]; rfl⟩

theorem Reached.changePriority (h : Reached flag pmax tasks) (t : τ) (arg : ℕ) :
    Reached flag pmax (tasks.changePriority t pmax arg) :=
  h.exec (.control t arg) fun r ht => ⟨_, rfl, by rw [← ht]; rfl⟩

theorem Reached.sleep (h : Reached flag pmax tasks) (hr : tasks.stat t = .ready) (k : κ) (time : ℤ) :
    Reached flag pmax (tasks.sleep t k (flag k) time) :=
  h.exec (.suspend t k time) fun r ht => ⟨_, if_pos (ht ▸ hr), by rw [← ht]; rfl⟩

theorem Reached.resume (h : Reached flag pmax tasks) (t : τ) : Reached flag pmax (tasks.resume t) :=
  h.exec (.resumeThread t) fun r ht => ⟨_, rfl, by rw [← ht]; rfl⟩

theorem Reached.expire (h : Reached flag pmax tasks) (he : tasks.expire t = some tasks') :
    Reached flag pmax tasks' := by
  refine h.exec (.expire t) fun r ht => ⟨r.setTasks tasks', ?_, rfl⟩
  rw [Run.exec, ht, he]
  rfl

/-- The owner of a mutex gets another priority by `rt_thread_control`. -/
theorem Reached.boost (h : Reached flag pmax tasks) (t u : τ) :
    Reached flag pmax (Mutex.boost pmax tasks t u) := by
  unfold Mutex.boost
  split
  · exact h.changePriority u _
  · exact h

theorem Reached.restore (h : Reached flag pmax tasks) (t : τ) (p : ℕ) :
    Reached flag pmax (Mutex.restore pmax tasks t p) := by
  unfold Mutex.restore
  split
  · exact h.changePriority t p
  · exact h

/-- The runs of the semaphores. -/
theorem sem_reached {v₀ : κ → ℕ} {r : Sem.Run κ τ} (h : Reachable (Sem.system v₀) r) :
    Reached (fun k => (r.os.sem k).flag) pmax r.os.tasks := by
  have key : ∃ flag, (∀ k, (r.os.sem k).flag = flag k) ∧ Reached flag pmax r.os.tasks := by
    refine h.invariant (I := fun r : Sem.Run κ τ => ∃ flag, (∀ k, (r.os.sem k).flag = flag k) ∧
      Reached flag pmax r.os.tasks) ?_ ?_
    · rintro r ⟨hs, -⟩
      exact ⟨_, fun _ => rfl, ⟨r.os.tasks, fun _ => 0, 0⟩, .init hs, rfl⟩
    · rintro r op r' ⟨flag, hf, hr⟩ - ⟨e, hst⟩
      refine ⟨flag, ?_⟩
      cases op with
      | take c k time =>
        obtain ⟨hfree, ⟨-, -, rfl⟩ | ⟨-, rfl⟩ | ⟨-, -, t, rfl, rfl⟩⟩ := Sem.take_cases hst
        · refine ⟨fun k' => ?_, hr⟩
          rw [← hf k']
          by_cases hk : k' = k <;> simp [hk]
        · exact ⟨hf, hr⟩
        · refine ⟨hf, ?_⟩
          have hready : (r.os.tasks.setError t rtEok).stat t = .ready := by simpa using hfree.2
          rw [hf k]
          exact (hr.setError t rtEok).sleep hready k time
      | goOn t =>
        obtain ⟨k, -, -, -, rfl⟩ := Sem.goOn_cases hst
        exact ⟨hf, hr⟩
      | release c k =>
        obtain ⟨-, ⟨t, l, -, rfl⟩ | ⟨-, rfl⟩⟩ := Sem.release_cases hst
        · exact ⟨hf, hr.resume t⟩
        · refine ⟨fun k' => ?_, hr⟩
          rw [← hf k']
          by_cases hk : k' = k <;> simp [hk]
      | expire t =>
        obtain ⟨-, tasks, ht, rfl⟩ := Sem.expire_cases hst
        exact ⟨hf, hr.expire ht⟩
  obtain ⟨flag, hf, hr⟩ := key
  rwa [funext hf]

/-- The runs of the mutexes, with the priorities that owners inherit. -/
theorem mutex_reached {r : Mutex.Run κ τ} (h : Reachable (Mutex.system pmax) r) :
    Reached (fun m => (r.os.mutex m).flag) pmax r.os.tasks := by
  have key : ∃ flag, (∀ m, (r.os.mutex m).flag = flag m) ∧ Reached flag pmax r.os.tasks := by
    refine h.invariant (I := fun r : Mutex.Run κ τ => ∃ flag,
      (∀ m, (r.os.mutex m).flag = flag m) ∧ Reached flag pmax r.os.tasks) ?_ ?_
    · rintro r ⟨hs, -⟩
      exact ⟨_, fun _ => rfl, ⟨r.os.tasks, fun _ => 0, 0⟩, .init hs, rfl⟩
    · rintro r op r' ⟨flag, hf, hr⟩ - ⟨e, hst⟩
      refine ⟨flag, ?_⟩
      -- a store into a mutex keeps its flag
      have hstore : ∀ (m : κ) (mutex : Mutex.RtMutex τ), mutex.flag = (r.os.mutex m).flag →
          ∀ m', (update r.os.mutex m mutex m').flag = flag m' := by
        intro m mutex hm m'
        rw [← hf m']
        by_cases hmm : m' = m
        · rw [hmm, update_self, hm]
        · rw [update_of_ne hmm]
      cases op with
      | take t m time =>
        obtain ⟨hfree, ⟨-, -, rfl⟩ | ⟨-, -, -, rfl⟩ | ⟨-, rfl⟩ | ⟨-, -, o, -, -, rfl⟩⟩ :=
          Mutex.take_cases hst
        · exact ⟨hstore m _ rfl, hr.setError t rtEok⟩
        · exact ⟨hstore m _ rfl, hr.setError t rtEok⟩
        · exact ⟨hf, hr.setError t _⟩
        · refine ⟨hf, ?_⟩
          have hready : (Mutex.boost pmax (r.os.tasks.setError t rtEok) t o).stat t = .ready := by
            simpa using hfree.2
          have hslept := ((hr.setError t rtEok).boost t o).sleep hready m time
          rwa [← hf m] at hslept
      | goOn t =>
        obtain ⟨m, -, -, -, rfl⟩ := Mutex.goOn_cases hst
        exact ⟨hf, hr⟩
      | release t m =>
        obtain ⟨-, ⟨-, -, rfl⟩ | ⟨-, -, -, rfl⟩ | ⟨-, -, -, rfl⟩ | ⟨-, -, w, l, -, rfl⟩⟩ :=
          Mutex.release_cases hst
        · exact ⟨hf, hr.setError t _⟩
        · exact ⟨hstore m _ rfl, hr⟩
        · exact ⟨hstore m _ rfl, hr.restore t _⟩
        · exact ⟨hstore m _ rfl, (hr.restore t _).resume w⟩
      | expire t =>
        obtain ⟨-, tasks, ht, rfl⟩ := Mutex.expire_cases hst
        exact ⟨hf, hr.expire ht⟩
  obtain ⟨flag, hf, hr⟩ := key
  rwa [funext hf]

end Objects

/-! ### Runs on the board -/

/-- Thread `n` has priority `n`, and nobody waits. -/
def board : Run Unit ℕ where
  tasks := ⟨fun t => ⟨.ready, t, t, 0, 0, 0, 0, false, false, true⟩, fun _ => []⟩
  arrived _ := 0
  clock := 0

/-- Threads 20 and 10 wait; thread 20 becomes more urgent, but not as urgent as 10, which is woken. -/
def levelRun : List (Op Unit ℕ) :=
  [.suspend 20 () (-1), .suspend 10 () 100, .control 20 15, .control 30 2, .resume ()]

instance (r : Run Unit ℕ) : ∀ op, Decidable (r.KeepsPlace (fun _ => .prio) op)
  | .control t arg => decidable_of_iff (t ∈ r.tasks.suspended () → ∀ u ∈ r.tasks.suspended (),
      u ≠ t → (r.key u < r.key t ↔ r.key u < toLex (arg, r.arrived t)))
      ⟨fun h _ _ => h, fun h => h () rfl⟩
  | .suspend .. | .resume _ | .resumeAll _ | .resumeThread _ | .expire _ | .error .. =>
    inferInstanceAs (Decidable True)

theorem sorted_of_keepsPlace_board : ∃ r, replay (fun r op =>
    if r.KeepsPlace (fun _ => .prio) op then r.exec (fun _ => .prio) 32 op else none) board levelRun =
      some r ∧ r.Sorted fun _ => .prio := by
  obtain ⟨r, hr⟩ := Option.isSome_iff_exists.1 (show (replay (fun r op =>
    if r.KeepsPlace (fun _ => .prio) op then r.exec (fun _ => .prio) 32 op else none) board
      levelRun).isSome = true by decide +kernel)
  have hreach : Reach (system (fun _ => .prio) 32) (Run.KeepsPlace fun _ => .prio) r :=
    Reach.of_replay (fun _ _ _ h => Option.ite_none_right_eq_some.1 h) levelRun
      (Reach.init fun _ => rfl) hr
  exact ⟨r, hr, (sorted_of_keepsPlace hreach).1⟩

/-- Threads 10 and 20 wait, then `rt_thread_control` gives thread 20 priority 5: it stays behind
    thread 10, which the next `rt_ipc_list_resume` takes. -/
theorem control_disorders : ¬∀ r : Run Unit ℕ, Reachable (system (fun _ => .prio) 32) r →
    r.Sorted (fun _ => .prio) ∧ r.WakesUrgent fun _ => .prio := by
  intro hall
  have hrun : ((replay (Run.exec (fun _ => .prio) 32) board
      [.suspend 10 () (-1), .suspend 20 () (-1), .control 20 5]).map fun r =>
        (r.tasks.suspended (), r.tasks.prio 10, r.tasks.prio 20)) = some ([10, 20], 10, 5) := by
    decide +kernel
  obtain ⟨r, hr, he⟩ := Option.map_eq_some_iff.1 hrun
  obtain ⟨hl, hp, hp'⟩ : r.tasks.suspended () = [10, 20] ∧ r.tasks.prio 10 = 10 ∧
      r.tasks.prio 20 = 5 := by
    simpa only [Prod.mk.injEq] using he
  have hreach : Reachable (system (fun _ => .prio) 32) r :=
    Reach.of_replay (fun _ _ _ h => ⟨trivial, h⟩) _ (Reach.init fun _ => rfl) hr
  have hle := (hall r hreach).2 () rfl 10 (by rw [hl]; rfl) 20 (by rw [hl]; simp)
  omega

end EasyCore.Ipc.PrioList
