import EasyCore.Kernel.Waiting
import EasyCore.Lib.Runs

/-! Mutexes (`src/ipc.c`, `rt_mutex_*`).

    A thread that has to wait lifts the owner to its own priority and goes to sleep; a full release
    restores the priority that the owner had when it took the mutex and hands the mutex over to the
    first waiter. As with semaphores, a blocking take is two steps. -/

namespace EasyCore.Ipc.Mutex
open Function EasyCore.Links EasyCore.Kernel EasyCore.Runs

/-- `struct rt_mutex`: `value` is 16 bits wide, `original_priority` and `hold` are 8. -/
structure RtMutex (τ : Type*) where
  value : ℕ
  originalPriority : ℕ
  hold : ℕ
  owner : Option τ
  flag : IpcFlag

/-- The threads and the mutexes. -/
structure State (μ τ : Type*) where
  tasks : Tasks μ τ
  mutex : μ → RtMutex τ

variable {μ τ : Type*}

/-- `rt_mutex_init` and `rt_mutex_create`. -/
def rtMutexInit (flag : IpcFlag) : RtMutex τ := ⟨1, 0xFF, 0, none, flag⟩

section Calls
variable [DecidableEq μ] [DecidableEq τ] (pmax : ℕ)

def State.setTasks (s : State μ τ) (tasks : Tasks μ τ) : State μ τ := { s with tasks := tasks }

/-- Store into a mutex. -/
def State.setMutex (s : State μ τ) (m : μ) (mutex : RtMutex τ) : State μ τ :=
  { s with mutex := update s.mutex m mutex }

/-- A thread that has to wait lifts the owner to its own priority. -/
def boost (tasks : Tasks μ τ) (thread owner : τ) : Tasks μ τ :=
  if tasks.prio thread < tasks.prio owner then
    tasks.changePriority owner pmax (tasks.prio thread)
  else tasks

/-- The owner gets its original priority back. -/
def restore (tasks : Tasks μ τ) (owner : τ) (originalPriority : ℕ) : Tasks μ τ :=
  if originalPriority ≠ tasks.prio owner then tasks.changePriority owner pmax originalPriority
  else tasks

/-- `rt_mutex_take` up to its `rt_schedule`: the result, if the caller does not wait. -/
def rtMutexTake (thread : τ) (m : μ) (time : ℤ) (s : State μ τ) : Option (Option ℤ × State μ τ) :=
  let mutex := s.mutex m
  let s := s.setTasks (s.tasks.setError thread rtEok)
  if mutex.owner = some thread then
    some (some rtEok, s.setMutex m { mutex with hold := (mutex.hold + 1) % 256 })
  else if mutex.value > 0 then
    some (some rtEok, s.setMutex m { mutex with
      value := mutex.value - 1
      owner := some thread
      originalPriority := s.tasks.prio thread
      hold := (mutex.hold + 1) % 256 })
  else if time = 0 then some (some (-rtEtimeout), s.setTasks (s.tasks.setError thread (-rtEtimeout)))
  else mutex.owner.map fun owner =>
    (none, s.setTasks ((boost pmax s.tasks thread owner).sleep thread m mutex.flag time))

/-- The new owner and the resumed thread, or the mutex free again, at the end of a full release. -/
def handOver (m : μ) (s : State μ τ) : Option (State μ τ) :=
  let mutex := s.mutex m
  match s.tasks.suspended m with
  | thread :: _ =>
    (s.tasks.ipcResume m).map fun tasks => (s.setMutex m { mutex with
      owner := some thread
      originalPriority := s.tasks.prio thread
      hold := (mutex.hold + 1) % 256 }).setTasks tasks
  | [] => some (s.setMutex m { mutex with
      value := (mutex.value + 1) % 65536
      owner := none
      originalPriority := 0xFF })

/-- `rt_mutex_release`. -/
def rtMutexRelease (thread : τ) (m : μ) (s : State μ τ) : Option (ℤ × State μ τ) :=
  let mutex := s.mutex m
  if some thread ≠ mutex.owner then
    some (-rtError, s.setTasks (s.tasks.setError thread (-rtError)))
  else
    let hold := (mutex.hold + 255) % 256
    let s := s.setMutex m { mutex with hold := hold }
    if hold = 0 then
      (handOver m (s.setTasks (restore pmax s.tasks thread mutex.originalPriority))).map
        fun s => (rtEok, s)
    else some (rtEok, s)

end Calls

/-! ### Runs -/

/-- What happens: calls, a thread going on after the `rt_schedule` of its `rt_mutex_take`, and the
    timer of a thread. -/
inductive Op (μ τ : Type*)
  | take (t : τ) (m : μ) (time : ℤ)
  | goOn (t : τ)
  | release (t : τ) (m : μ)
  | expire (t : τ)

/-- The state, the mutex on which the call of a thread waits, and for each thread the calls that
    have returned `RT_EOK`. -/
structure Run (μ τ : Type*) where
  os : State μ τ
  pc : τ → Option μ
  takes : μ → τ → ℕ
  releases : μ → τ → ℕ

section Exec
variable [DecidableEq μ] [DecidableEq τ] (pmax : ℕ)

/-- One more call of `t` that returned `e`. -/
def count (n : μ → τ → ℕ) (m : μ) (t : τ) (e : Option ℤ) : μ → τ → ℕ :=
  if e = some rtEok then update n m (update (n m) t (n m t + 1)) else n

/-- One step of a run and the value returned in it. -/
def Run.exec (r : Run μ τ) : Op μ τ → Option (Option ℤ × Run μ τ)
  | .take t m time =>
    if r.os.tasks.Free r.pc (some t) then
      (rtMutexTake pmax t m time r.os).map fun (e, os) =>
        (e, { r with os := os
                     pc := if e = none then update r.pc t (some m) else r.pc
                     takes := count r.takes m t e })
    else none
  | .goOn t => (r.pc t).bind fun m =>
    if r.os.tasks.stat t = .ready then
      let e := some (r.os.tasks.error t)
      some (e, { r with pc := update r.pc t none, takes := count r.takes m t e })
    else none
  | .release t m =>
    if r.os.tasks.Free r.pc (some t) then
      (rtMutexRelease pmax t m r.os).map fun (e, os) =>
        (some e, { r with os := os, releases := count r.releases m t (some e) })
    else none
  | .expire t => (r.os.tasks.expire t).map fun tasks =>
      (none, { r with os := r.os.setTasks tasks })

/-- The mutexes just initialised, nobody waiting, and every thread at its own priority. -/
def Run.Init (r : Run μ τ) : Prop :=
  (∀ m, r.os.tasks.suspended m = []) ∧ (∀ m, ∃ flag, r.os.mutex m = rtMutexInit flag) ∧
    (∀ t, r.pc t = none) ∧ (∀ m t, r.takes m t = 0 ∧ r.releases m t = 0) ∧
    ∀ t, r.os.tasks.prio t = r.os.tasks.initPrio t

/-- The runs of any number of threads on any number of mutexes. -/
def system : System (Run μ τ) (Op μ τ) where
  init := Run.Init
  step r op r' := ∃ e, r.exec pmax op = some (e, r')

end Exec

/-! ### What a step can do -/

@[simp] theorem setTasks_fields (s : State μ τ) (tasks : Tasks μ τ) :
    (s.setTasks tasks).tasks = tasks ∧ (s.setTasks tasks).mutex = s.mutex := ⟨rfl, rfl⟩

@[simp] theorem setMutex_fields [DecidableEq μ] (s : State μ τ) (m : μ) (mutex : RtMutex τ) :
    (s.setMutex m mutex).tasks = s.tasks ∧ (s.setMutex m mutex).mutex = update s.mutex m mutex :=
  ⟨rfl, rfl⟩

section Fields
variable [DecidableEq τ]

/-- The boost: the more urgent of the two priorities. -/
@[simp] theorem boost_fields (pmax : ℕ) (tasks : Tasks μ τ) (t o : τ) :
    (boost pmax tasks t o).suspended = tasks.suspended ∧
    (boost pmax tasks t o).stat = tasks.stat ∧ (boost pmax tasks t o).error = tasks.error ∧
    (boost pmax tasks t o).prio = update tasks.prio o (min (tasks.prio o) (tasks.prio t)) ∧
    (boost pmax tasks t o).initPrio = tasks.initPrio := by
  unfold boost
  split
  next h => simp [min_eq_right h.le]
  next h => simp [min_eq_left (not_lt.1 h)]

@[simp] theorem restore_fields (pmax : ℕ) (tasks : Tasks μ τ) (t : τ) (p : ℕ) :
    (restore pmax tasks t p).suspended = tasks.suspended ∧
    (restore pmax tasks t p).stat = tasks.stat ∧ (restore pmax tasks t p).error = tasks.error ∧
    (restore pmax tasks t p).prio = update tasks.prio t p ∧
    (restore pmax tasks t p).initPrio = tasks.initPrio := by
  unfold restore
  split
  next h => simp
  next h => simp [not_not.1 h]

end Fields

section Cases
variable [DecidableEq μ] [DecidableEq τ] {pmax : ℕ} {r r' : Run μ τ} {t : τ} {m : μ} {time : ℤ}
  {e : Option ℤ}

/-- The owner takes once more. -/
def Run.nest (r : Run μ τ) (t : τ) (m : μ) : Run μ τ :=
  { r with os := (r.os.setTasks (r.os.tasks.setError t rtEok)).setMutex m
             { r.os.mutex m with hold := ((r.os.mutex m).hold + 1) % 256 }
           takes := count r.takes m t (some rtEok) }

/-- A thread becomes the owner of a free mutex. -/
def Run.acquire (r : Run μ τ) (t : τ) (m : μ) : Run μ τ :=
  { r with os := (r.os.setTasks (r.os.tasks.setError t rtEok)).setMutex m
             { r.os.mutex m with
               value := (r.os.mutex m).value - 1
               owner := some t
               originalPriority := r.os.tasks.prio t
               hold := ((r.os.mutex m).hold + 1) % 256 }
           takes := count r.takes m t (some rtEok) }

/-- A thread boosts the owner `o` and goes to sleep. -/
def Run.wait (pmax : ℕ) (r : Run μ τ) (t : τ) (m : μ) (time : ℤ) (o : τ) : Run μ τ :=
  { r with os := r.os.setTasks ((boost pmax (r.os.tasks.setError t rtEok) t o).sleep t m
             (r.os.mutex m).flag time)
           pc := update r.pc t (some m) }

/-- A thread that has been made ready returns from its call. -/
def Run.return (r : Run μ τ) (t : τ) (m : μ) : Run μ τ :=
  { r with pc := update r.pc t none, takes := count r.takes m t (some (r.os.tasks.error t)) }

/-- Only an error number changes. -/
def Run.fail (r : Run μ τ) (t : τ) (e : ℤ) : Run μ τ :=
  { r with os := r.os.setTasks (r.os.tasks.setError t e) }

/-- The owner gives up one of several holds. -/
def Run.unnest (r : Run μ τ) (t : τ) (m : μ) : Run μ τ :=
  { r with os := r.os.setMutex m
             { r.os.mutex m with hold := ((r.os.mutex m).hold + 255) % 256 }
           releases := count r.releases m t (some rtEok) }

/-- The owner gives the mutex up and nobody waits. -/
def Run.free (pmax : ℕ) (r : Run μ τ) (t : τ) (m : μ) : Run μ τ :=
  { r with os := (r.os.setTasks (restore pmax r.os.tasks t
             (r.os.mutex m).originalPriority)).setMutex m
             { r.os.mutex m with
               value := ((r.os.mutex m).value + 1) % 65536
               originalPriority := 0xFF
               hold := 0
               owner := none }
           releases := count r.releases m t (some rtEok) }

/-- The owner gives the mutex up, and the waiter `w` gets it. -/
def Run.hand (pmax : ℕ) (r : Run μ τ) (t : τ) (m : μ) (w : τ) : Run μ τ :=
  let tasks := restore pmax r.os.tasks t (r.os.mutex m).originalPriority
  { r with os := (r.os.setTasks (tasks.resume w)).setMutex m
             { r.os.mutex m with originalPriority := tasks.prio w, hold := 1, owner := some w }
           releases := count r.releases m t (some rtEok) }

/-- The release of `m` by `t` gives the mutex up. -/
def Run.givesUp (r : Run μ τ) (t : τ) (m : μ) : Prop :=
  (r.os.mutex m).owner = some t ∧ ((r.os.mutex m).hold + 255) % 256 = 0

instance : Decidable (r.givesUp t m) := inferInstanceAs (Decidable (_ ∧ _))

/-- A take takes once more, takes a free mutex, gives up at once, or goes to sleep. -/
theorem take_cases (h : r.exec pmax (.take t m time) = some (e, r')) :
    r.os.tasks.Free r.pc (some t) ∧
    ((r.os.mutex m).owner = some t ∧ e = some rtEok ∧ r' = r.nest t m ∨
      (r.os.mutex m).owner ≠ some t ∧ 0 < (r.os.mutex m).value ∧ e = some rtEok ∧
        r' = r.acquire t m ∨
      e = some (-rtEtimeout) ∧ r' = r.fail t (-rtEtimeout) ∨
      time ≠ 0 ∧ e = none ∧ ∃ o, (r.os.mutex m).owner = some o ∧ o ≠ t ∧
        r' = r.wait pmax t m time o) := by
  obtain ⟨hf, h⟩ := Option.ite_none_right_eq_some.1 h
  refine ⟨hf, ?_⟩
  obtain ⟨⟨e', os⟩, ht, he⟩ := Option.map_eq_some_iff.1 h
  obtain ⟨rfl, rfl⟩ := Prod.mk.inj he
  rw [rtMutexTake] at ht
  split at ht
  next ho =>
    obtain ⟨rfl, rfl⟩ := Prod.mk.inj (Option.some.inj ht)
    exact .inl ⟨ho, rfl, rfl⟩
  next ho =>
    right
    split at ht
    next hv =>
      obtain ⟨rfl, rfl⟩ := Prod.mk.inj (Option.some.inj ht)
      exact .inl ⟨ho, hv, rfl, by simp [Run.acquire]⟩
    next hv =>
      right
      split at ht
      next =>
        obtain ⟨rfl, rfl⟩ := Prod.mk.inj (Option.some.inj ht)
        exact .inl ⟨rfl, by simp [Run.fail, State.setTasks, count, rtEtimeout, rtEok]⟩
      next htime =>
        obtain ⟨o, hw, hs⟩ := Option.map_eq_some_iff.1 ht
        obtain ⟨rfl, rfl⟩ := Prod.mk.inj hs
        exact .inr ⟨htime, rfl, o, hw, fun e => ho (e ▸ hw), rfl⟩

/-- A release is refused, gives up one hold, or gives the mutex up. -/
theorem release_cases (h : r.exec pmax (.release t m) = some (e, r')) :
    r.os.tasks.Free r.pc (some t) ∧
    ((r.os.mutex m).owner ≠ some t ∧ e = some (-rtError) ∧ r' = r.fail t (-rtError) ∨
      (r.os.mutex m).owner = some t ∧ ¬r.givesUp t m ∧ e = some rtEok ∧ r' = r.unnest t m ∨
      r.givesUp t m ∧ e = some rtEok ∧ r.os.tasks.suspended m = [] ∧ r' = r.free pmax t m ∨
      r.givesUp t m ∧ e = some rtEok ∧ ∃ w l, r.os.tasks.suspended m = w :: l ∧
        r' = r.hand pmax t m w) := by
  obtain ⟨hf, h⟩ := Option.ite_none_right_eq_some.1 h
  refine ⟨hf, ?_⟩
  obtain ⟨⟨e', os⟩, ht, he⟩ := Option.map_eq_some_iff.1 h
  obtain ⟨rfl, rfl⟩ := Prod.mk.inj he
  rw [rtMutexRelease] at ht
  split at ht
  next ho =>
    obtain ⟨rfl, rfl⟩ := Prod.mk.inj (Option.some.inj ht)
    exact .inl ⟨Ne.symm ho, rfl, rfl⟩
  next ho =>
    have ho := (not_not.1 ho).symm
    dsimp only at ht
    right
    by_cases hh : ((r.os.mutex m).hold + 255) % 256 = 0
    · rw [if_pos hh] at ht
      obtain ⟨os, hs, ht⟩ := Option.map_eq_some_iff.1 ht
      obtain ⟨rfl, rfl⟩ := Prod.mk.inj ht
      right
      cases hl : r.os.tasks.suspended m with
      | nil =>
        simp only [handOver, setTasks_fields, setMutex_fields, restore_fields, hl, hh] at hs
        obtain rfl := Option.some.inj hs
        exact .inl ⟨⟨ho, hh⟩, rfl, rfl, by simp [Run.free, State.setTasks, State.setMutex]⟩
      | cons w l =>
        simp only [handOver, setTasks_fields, setMutex_fields, restore_fields, hl, hh,
          Tasks.ipcResume] at hs
        obtain rfl := Option.some.inj hs
        exact .inr ⟨⟨ho, hh⟩, rfl, w, l, rfl, by simp [Run.hand, State.setTasks, State.setMutex]⟩
    · rw [if_neg hh] at ht
      obtain ⟨rfl, rfl⟩ := Prod.mk.inj (Option.some.inj ht)
      exact .inl ⟨ho, fun hg => hh hg.2, rfl, rfl⟩

theorem goOn_cases (h : r.exec pmax (.goOn t) = some (e, r')) :
    ∃ m, r.pc t = some m ∧ r.os.tasks.stat t = .ready ∧ e = some (r.os.tasks.error t) ∧
      r' = r.return t m := by
  obtain ⟨m, hm, h⟩ := Option.bind_eq_some_iff.1 h
  obtain ⟨hr, h⟩ := Option.ite_none_right_eq_some.1 h
  obtain ⟨rfl, rfl⟩ := Prod.mk.inj (Option.some.inj h)
  exact ⟨m, hm, hr, rfl, rfl⟩

theorem expire_cases (h : r.exec pmax (.expire t) = some (e, r')) : e = none ∧
    ∃ tasks, r.os.tasks.expire t = some tasks ∧ r' = { r with os := r.os.setTasks tasks } := by
  obtain ⟨tasks, ht, h⟩ := Option.map_eq_some_iff.1 h
  obtain ⟨rfl, rfl⟩ := Prod.mk.inj h
  exact ⟨rfl, tasks, ht, rfl⟩

end Cases

/-! ### Ownership in every run -/

section Base

/-- What holds of any interleaving, however deep the holds are nested. -/
structure Base (s : State μ τ) (pc : τ → Option μ) : Prop where
  waiting : Waiting s.tasks pc
  calm : ∀ {m t}, t ∈ s.tasks.suspended m → s.tasks.error t = rtEok
  free : ∀ {m}, (s.mutex m).owner = none →
    (s.mutex m).value = 1 ∧ (s.mutex m).hold = 0 ∧ s.tasks.suspended m = []
  taken : ∀ {m o}, (s.mutex m).owner = some o → (s.mutex m).value = 0 ∧ o ∉ s.tasks.suspended m
  granted : ∀ {m t}, Granted s.tasks pc m t → (s.mutex m).owner = some t

variable {pmax : ℕ} {s : State μ τ} {tasks : Tasks μ τ} {pc : τ → Option μ} {t o w : τ} {m : μ}
  {time : ℤ}

/-- Other priorities, or another error number of a thread that waits for nothing. -/
theorem Base.setTasks (b : Base s pc) (hs : tasks.suspended = s.tasks.suspended)
    (ht : tasks.stat = s.tasks.stat)
    (he : ∀ u, tasks.error u = s.tasks.error u ∨ s.tasks.Free pc (some u)) :
    Base (s.setTasks tasks) pc where
  waiting := b.waiting.congr hs ht
  calm {m' u} hu := by
    simp only [setTasks_fields, hs] at hu ⊢
    rcases he u with he | hf
    · exact he.trans (b.calm hu)
    · exact absurd hu (b.waiting.not_mem hf.2 m')
  free ho := by
    simp only [setTasks_fields, hs]
    exact b.free ho
  taken ho := by
    simp only [setTasks_fields, hs]
    exact b.taken ho
  granted {m' u} hg := by
    obtain ⟨hp, hn, he'⟩ := hg
    simp only [setTasks_fields, hs] at hn he'
    rcases he u with he | hf
    · exact b.granted ⟨hp, hn, he.symm.trans he'⟩
    · exact absurd (hf.1.symm.trans hp) (by simp)

theorem init_base {r : Run μ τ} (h : r.Init) : Base r.os r.pc := by
  obtain ⟨hs, hm, hp, -⟩ := h
  refine ⟨.empty hs hp, fun {m t} ht => by simp [hs] at ht, fun {m} _ => ?_, fun {m o} ho => ?_,
    fun {m t} hg => ?_⟩
  · obtain ⟨flag, hf⟩ := hm m
    exact ⟨by rw [hf]; rfl, by rw [hf]; rfl, hs m⟩
  · obtain ⟨flag, hf⟩ := hm m
    rw [hf] at ho
    exact absurd ho (by simp [rtMutexInit])
  · exact absurd ((hp t).symm.trans hg.1) (by simp)

variable [DecidableEq τ]

theorem Base.setError (b : Base s pc) (hf : s.tasks.Free pc (some t)) (e : ℤ) :
    Base (s.setTasks (s.tasks.setError t e)) pc := by
  refine b.setTasks (by simp) (by simp) fun u => ?_
  by_cases hu : u = t
  · exact .inr (hu ▸ hf)
  · exact .inl (by simp [hu])

theorem Base.restore (b : Base s pc) (p : ℕ) :
    Base (s.setTasks (restore pmax s.tasks t p)) pc :=
  b.setTasks (by simp) (by simp) fun u => .inl (by simp)

theorem Base.expire (b : Base s pc) (h : s.tasks.expire t = some tasks) :
    Base (s.setTasks tasks) pc := by
  obtain ⟨-, hs, -, he, -⟩ := expire_fields h
  refine ⟨b.waiting.expire h, fun {m u} hu => ?_, fun {m} ho => ?_, fun {m o} ho => ?_,
    fun {m u} hg => b.granted ((granted_expire b.waiting h).1 hg)⟩
  · simp only [setTasks_fields, hs] at hu
    have hut : u ≠ t := fun e => not_mem_without (b.waiting.nodup m) (e ▸ hu)
    rw [mem_without_of_ne hut] at hu
    simp only [setTasks_fields, he, update_of_ne hut]
    exact b.calm hu
  · obtain ⟨hv, hh, hl⟩ := b.free ho
    exact ⟨hv, hh, by simp only [setTasks_fields, hs, without, hl, List.erase_nil]⟩
  · refine ⟨(b.taken ho).1, fun hm => (b.taken ho).2 ?_⟩
    simp only [setTasks_fields, hs] at hm
    exact List.mem_of_mem_erase hm

theorem Base.leave (b : Base s pc) (hr : s.tasks.stat t = .ready) : Base s (update pc t none) where
  waiting := b.waiting.leave hr
  calm := b.calm
  free := b.free
  taken := b.taken
  granted hg := b.granted (granted_leave.1 hg).1

variable [DecidableEq μ]

omit [DecidableEq τ] in
/-- Another owner, value and hold of one mutex. -/
theorem Base.setMutex (b : Base s pc) (mutex : RtMutex τ)
    (hfree : mutex.owner = none → mutex.value = 1 ∧ mutex.hold = 0 ∧ s.tasks.suspended m = [])
    (htaken : ∀ o, mutex.owner = some o → mutex.value = 0 ∧ o ∉ s.tasks.suspended m)
    (hg : ∀ u, Granted s.tasks pc m u → mutex.owner = some u) :
    Base (s.setMutex m mutex) pc where
  waiting := b.waiting
  calm := b.calm
  free {m'} ho := by
    by_cases hm : m' = m
    · subst hm
      simp only [setMutex_fields, update_self] at ho ⊢
      exact hfree ho
    · simp only [setMutex_fields, update_of_ne hm] at ho ⊢
      exact b.free ho
  taken {m' o} ho := by
    by_cases hm : m' = m
    · subst hm
      simp only [setMutex_fields, update_self] at ho ⊢
      exact htaken o ho
    · simp only [setMutex_fields, update_of_ne hm] at ho ⊢
      exact b.taken ho
  granted {m' u} hg' := by
    by_cases hm : m' = m
    · subst hm
      simp only [setMutex_fields, update_self]
      exact hg u hg'
    · simp only [setMutex_fields, update_of_ne hm]
      exact b.granted hg'

omit [DecidableEq τ] [DecidableEq μ] in
theorem Base.owner_none (b : Base s pc) (hv : 0 < (s.mutex m).value) :
    (s.mutex m).owner = none := by
  by_contra hn
  obtain ⟨o, hn⟩ := Option.ne_none_iff_exists'.1 hn
  exact absurd (b.taken hn).1 hv.ne'

omit [DecidableEq τ] [DecidableEq μ] in
/-- Nothing is on its way to a waiter while the owner is in no call. -/
theorem Base.not_granted {u : τ} (b : Base s pc) (hp : pc t = none)
    (ho : (s.mutex m).owner = some t) : ¬Granted s.tasks pc m u := fun hg => by
  obtain rfl := Option.some.inj ((b.granted hg).symm.trans ho)
  exact absurd (hp.symm.trans hg.1) (by simp)

omit [DecidableEq τ] in
/-- A new hold of the same owner. -/
theorem Base.setHold (b : Base s pc) (ho : (s.mutex m).owner = some o) (n : ℕ) :
    Base (s.setMutex m { s.mutex m with hold := n }) pc :=
  b.setMutex _ (fun h => absurd (ho.symm.trans h) (by simp)) (fun _ h => b.taken h)
    fun _ hg => b.granted hg

/-- A thread goes to sleep on a mutex that another one owns. -/
theorem Base.sleep (b : Base s pc) (hf : s.tasks.Free pc (some t))
    (ho : (s.mutex m).owner = some o) (hne : o ≠ t) (he : s.tasks.error t = rtEok)
    (flag : IpcFlag) : Base (s.setTasks (s.tasks.sleep t m flag time)) (update pc t (some m)) := by
  obtain ⟨hs, -, he', -⟩ := sleep_fields (k := m) hf.2 flag time
  have hp := insertWaiter_perm flag s.tasks.prio t (s.tasks.suspended m)
  have hmem : ∀ m' u, u ∈ (s.tasks.sleep t m flag time).suspended m' ↔
      u ∈ s.tasks.suspended m' ∨ (m' = m ∧ u = t) := by
    intro m' u
    rw [hs]
    by_cases hm : m' = m
    · subst hm
      rw [update_self, hp.mem_iff, List.mem_cons, or_comm]
      simp
    · simp [hm]
  refine ⟨b.waiting.sleep hf.2 flag time, fun {m' u} hu => ?_, fun {m'} hn => ?_,
    fun {m' o'} ho' => ?_, fun {m' u} hg => ?_⟩
  · simp only [setTasks_fields, hmem, he'] at hu ⊢
    rcases hu with hu | ⟨-, rfl⟩
    · exact b.calm hu
    · exact he
  · have hm : m' ≠ m := by
      rintro rfl
      exact absurd (ho.symm.trans hn) (by simp)
    simp only [setTasks_fields, hs, update_of_ne hm]
    exact b.free hn
  · simp only [setTasks_fields, hmem, not_or]
    refine ⟨(b.taken ho').1, (b.taken ho').2, ?_⟩
    rintro ⟨rfl, rfl⟩
    exact hne (Option.some.inj (ho.symm.trans ho'))
  · exact b.granted ((granted_block hf.1 hs hp fun v _ => congrFun he' v).1 hg)

/-- The owner hands the mutex to the waiter `w`. -/
theorem Base.hand (b : Base s pc) (hf : s.tasks.Free pc (some t))
    (ho : (s.mutex m).owner = some t) (hw : w ∈ s.tasks.suspended m) (mutex : RtMutex τ)
    (hown : mutex.owner = some w) (hv : mutex.value = (s.mutex m).value) :
    Base ((s.setTasks (s.tasks.resume w)).setMutex m mutex) pc := by
  obtain ⟨hs, -, he, -⟩ := resume_fields (b.waiting.mem hw).2
  have hsub : ∀ {m' u}, u ∈ (s.tasks.resume w).suspended m' → u ∈ s.tasks.suspended m' :=
    fun {m' u} hu => List.mem_of_mem_erase (by rwa [hs] at hu)
  have hgr : ∀ m' u, Granted (s.tasks.resume w) pc m' u ↔
      Granted s.tasks pc m' u ∨ (m' = m ∧ u = w) :=
    fun _ _ => granted_resume b.waiting hw (b.calm hw)
  refine ⟨b.waiting.resume hw, fun {m' u} hu => ?_, fun {m'} hn => ?_, fun {m' o} ho' => ?_,
    fun {m' u} hg => ?_⟩
  · simp only [setMutex_fields, setTasks_fields, he] at hu ⊢
    exact b.calm (hsub hu)
  · by_cases hm : m' = m
    · subst hm
      simp [hown] at hn
    · simp only [setMutex_fields, setTasks_fields, update_of_ne hm] at hn ⊢
      obtain ⟨hv, hh, hl⟩ := b.free hn
      exact ⟨hv, hh, by rw [hs, without, hl, List.erase_nil]⟩
  · by_cases hm : m' = m
    · subst hm
      simp only [setMutex_fields, setTasks_fields, update_self, hown, hv] at ho' ⊢
      obtain rfl := Option.some.inj ho'
      exact ⟨(b.taken ho).1, by rw [hs]; exact not_mem_without (b.waiting.nodup m')⟩
    · simp only [setMutex_fields, setTasks_fields, update_of_ne hm] at ho' ⊢
      exact ⟨(b.taken ho').1, fun h => (b.taken ho').2 (hsub h)⟩
  · simp only [setMutex_fields, setTasks_fields] at hg ⊢
    rcases (hgr m' u).1 hg with hg | ⟨rfl, rfl⟩
    · by_cases hm : m' = m
      · subst hm
        exact absurd hg (b.not_granted hf.1 ho)
      · rw [update_of_ne hm]
        exact b.granted hg
    · rw [update_self, hown]

variable {r r' : Run μ τ} {op : Op μ τ} {e : Option ℤ}

/-- Every step keeps it. -/
theorem Base.step (b : Base r.os r.pc) (h : r.exec pmax op = some (e, r')) : Base r'.os r'.pc := by
  cases op with
  | take t m time =>
    obtain ⟨hf, ⟨ho, -, rfl⟩ | ⟨ho, hv, -, rfl⟩ | ⟨-, rfl⟩ | ⟨-, -, o, ho, hne, rfl⟩⟩ := take_cases h
    · exact (b.setError hf rtEok).setHold ho _
    · have hn := b.owner_none hv
      refine (b.setError hf rtEok).setMutex _ (fun h => absurd h (by simp)) (fun o ho' => ?_)
        fun u hg => ?_
      · obtain rfl := Option.some.inj ho'
        exact ⟨by rw [(b.free hn).1], (b.setError hf rtEok).waiting.not_mem
          (by simpa using hf.2) m⟩
      · exact absurd (hn.symm.trans ((b.setError hf rtEok).granted hg)) (by simp)
    · exact b.setError hf _
    · have b' : Base (r.os.setTasks (boost pmax (r.os.tasks.setError t rtEok) t o)) r.pc :=
        (b.setError hf rtEok).setTasks (by simp) (by simp) fun u => .inl (by simp)
      exact b'.sleep ⟨hf.1, by simpa using hf.2⟩ ho hne (by simp) _
  | goOn t =>
    obtain ⟨m, -, hr, -, rfl⟩ := goOn_cases h
    exact b.leave hr
  | release t m =>
    obtain ⟨hf, ⟨-, -, rfl⟩ | ⟨ho, -, -, rfl⟩ | ⟨hg, -, hl, rfl⟩ | ⟨hg, -, w, l, hl, rfl⟩⟩ :=
      release_cases h
    · exact b.setError hf _
    · exact b.setHold ho _
    · refine (b.restore _).setMutex _ (fun _ => ?_) (fun o ho => absurd ho (by simp)) fun u hu => ?_
      · exact ⟨by simp [(b.taken hg.1).1], rfl, by simpa using hl⟩
      · exact absurd hu ((b.restore _).not_granted hf.1 hg.1)
    · exact (b.restore _).hand ⟨hf.1, by simpa using hf.2⟩ hg.1 (by simp [hl]) _ rfl rfl
  | expire t =>
    obtain ⟨-, tasks, ht, rfl⟩ := expire_cases h
    exact b.expire ht

end Base

end EasyCore.Ipc.Mutex
