import EasyCore.Kernel.Sem

/-! Condition variables (`components/pthreads/pthread_cond.c`). A condition variable is a semaphore: a
    wait unlocks the mutex, takes the semaphore and locks the mutex again. Between its unlock and its
    `rt_sem_take` a waiting thread is on no list; such threads are in the `window`. -/

namespace EasyCore.Pthreads
open Function Kernel Ipc Links

/-- `RT_WAITING_FOREVER`, `EINVAL`. -/
def rtWaitingForever : ℤ := -1
def einval : ℤ := 22

/-- Where a thread is inside `_pthread_cond_timedwait`: between the unlock and `rt_sem_take`, inside
    `rt_sem_take`, or locking the mutex again with the result `e`. -/
inductive Phase (κ : Type*)
  | window (k : κ) (timeout : ℤ)
  | taking (k : κ)
  | locking (k : κ) (e : ℤ)
  deriving DecidableEq

/-- The threads, the semaphores of the condition variables, and the threads that wait. -/
@[ext]
structure Conds (κ τ : Type*) where
  os : Sem.State κ τ
  window : κ → List τ
  phase : τ → Option (Phase κ)

variable {κ τ : Type*}

/-- The semaphore that a thread takes. -/
def Phase.sem : Phase κ → Option κ
  | .taking k => some k
  | _ => none

/-- The condition variable that a thread waits on. -/
def Phase.cond : Phase κ → κ
  | .window k _ => k
  | .taking k => k
  | .locking k _ => k

namespace Conds
variable [DecidableEq κ] [DecidableEq τ] (s : Conds κ τ)

def pc (s : Conds κ τ) (t : τ) : Option κ := (s.phase t).bind Phase.sem

def suspended (s : Conds κ τ) (k : κ) : List τ := s.os.tasks.suspended k

def value (s : Conds κ τ) (k : κ) : ℕ := (s.os.sem k).value

def stat (s : Conds κ τ) (t : τ) : Stat := s.os.tasks.stat t

def error (s : Conds κ τ) (t : τ) : ℤ := s.os.tasks.error t

/-- `pthread_cond_signal`: `rt_sem_release` -/
def pthreadCondSignal (k : κ) (os : Sem.State κ τ) : Sem.State κ τ :=
  ((Sem.rtSemRelease k os).map Prod.snd).getD os

/-- The loop of `pthread_cond_broadcast`: it ends when `rt_sem_trytake` has found a count. -/
def broadcastLoop (k : κ) : ℕ → Sem.State κ τ → Sem.State κ τ
  | 0, os => os
  | fuel + 1, os =>
    match Sem.rtSemTake none k 0 os with
    | some (some e, os) =>
      if e = rtEok then pthreadCondSignal k os
      else broadcastLoop k fuel (pthreadCondSignal k os)
    | _ => os

/-- `pthread_cond_broadcast` -/
def pthreadCondBroadcast (k : κ) (os : Sem.State κ τ) : Sem.State κ τ :=
  broadcastLoop k ((os.tasks.suspended k).length + 2) os

def signal (k : κ) : Conds κ τ := { s with os := pthreadCondSignal k s.os }

def broadcast (k : κ) : Conds κ τ := { s with os := pthreadCondBroadcast k s.os }

/-- A wait begins: the mutex is unlocked. -/
def enter (t : τ) (k : κ) (timeout : ℤ) : Conds κ τ :=
  { s with
    window := update s.window k (s.window k ++ [t])
    phase := update s.phase t (some (.window k timeout)) }

/-- A waiting thread calls `rt_sem_take`. -/
def take (t : τ) : Option (Conds κ τ) :=
  match s.phase t with
  | some (.window k timeout) =>
    if s.stat t = .ready then
      (Sem.rtSemTake (some t) k timeout s.os).map fun res =>
        { os := res.2
          window := update s.window k ((s.window k).erase t)
          phase := update s.phase t (some (res.1.elim (.taking k) (.locking k))) }
    else none
  | _ => none

/-- A thread that has been woken goes on in its `rt_sem_take`. -/
def wake (t : τ) : Option (Conds κ τ) :=
  match s.phase t with
  | some (.taking k) =>
    if s.stat t = .ready then
      some { s with phase := update s.phase t (some (.locking k (s.os.tasks.error t))) }
    else none
  | _ => none

/-- A thread has locked the mutex again. -/
def leave (t : τ) : Conds κ τ := { s with phase := update s.phase t none }

/-- The timer of a thread. -/
def expire (t : τ) : Option (Conds κ τ) :=
  (s.os.tasks.expire t).map fun tasks => { s with os := { s.os with tasks := tasks } }

/-! ### What the operations do -/

/-- Who waits is where it is said to be: a thread in the window of a semaphore is not on its list, and
    nobody is on the list while the semaphore has a count. A waiter has no error yet. -/
structure Inv (s : Conds κ τ) : Prop where
  waiting : Waiting s.os.tasks s.pc
  calm : ∀ k, ∀ t ∈ s.suspended k, s.error t = rtEok
  idle : ∀ k, 0 < s.value k → s.suspended k = []
  nodup : ∀ k, (s.window k).Nodup
  mem : ∀ k t, t ∈ s.window k ↔ ∃ timeout, s.phase t = some (.window k timeout)
  lt : ∀ k, s.value k < 2 ^ 16

/-- Nobody waits: `pthread_cond_init` -/
structure Init (s : Conds κ τ) : Prop where
  suspended : ∀ k, s.suspended k = []
  sem : ∀ k, s.os.sem k = Sem.rtSemInit 0 .fifo
  window : ∀ k, s.window k = []
  phase : ∀ t, s.phase t = none

variable {s s' : Conds κ τ} {t u : τ} {k k' : κ} {timeout : ℤ}

omit [DecidableEq κ] [DecidableEq τ] in
theorem Init.value (h : s.Init) (k : κ) : s.value k = 0 := by
  rw [Conds.value, h.sem]
  rfl

omit [DecidableEq κ] [DecidableEq τ] in
theorem Init.out (h : s.Init) (t : τ) (ph : Phase κ) : s.phase t ≠ some ph := fun hph =>
  absurd ((h.phase t).symm.trans hph) (Option.some_ne_none _).symm

omit [DecidableEq κ] [DecidableEq τ] in
theorem Init.inv (h : s.Init) : Inv s := by
  refine ⟨Waiting.empty h.suspended fun t => ?_, fun k t ht => ?_, fun k _ => h.suspended k,
    fun k => ?_, fun k t => ?_, fun k => ?_⟩
  · rw [pc, h.phase]
    rfl
  · rw [h.suspended] at ht
    exact absurd ht List.not_mem_nil
  · rw [h.window]
    exact List.nodup_nil
  · rw [h.window]
    exact iff_of_false List.not_mem_nil fun ⟨time, ht⟩ => h.out _ _ ht
  · rw [h.value]
    decide

omit [DecidableEq κ] in
theorem pc_update (s : Conds κ τ) (t : τ) (ph : Option (Phase κ)) :
    (fun u => (update s.phase t ph u).bind Phase.sem) = update s.pc t (ph.bind Phase.sem) := by
  funext u
  obtain rfl | hu := eq_or_ne u t
  · simp only [update_self]
  · simp only [update_of_ne hu, pc]

omit [DecidableEq κ] [DecidableEq τ] in
theorem pc_of_phase {ph : Option (Phase κ)} (h : s.phase t = ph) : s.pc t = ph.bind Phase.sem := by
  rw [pc, h]

omit [DecidableEq κ] in
/-- A thread that is not in a semaphore and stays so. -/
theorem pc_update_same (h : s.pc t = none) {ph : Option (Phase κ)} (hph : ph.bind Phase.sem = none) :
    (fun u => (update s.phase t ph u).bind Phase.sem) = s.pc := by
  rw [pc_update, hph, ← h, update_eq_self]

omit [DecidableEq κ] [DecidableEq τ] in
/-- Who is on the list of a semaphore is in `rt_sem_take`. -/
theorem Inv.phase_of_suspended (i : Inv s) (ht : t ∈ s.suspended k) : s.phase t = some (.taking k) := by
  obtain ⟨ph, hph, hsem⟩ := Option.bind_eq_some_iff.1 (i.waiting.mem ht).1
  cases ph with
  | taking j => exact Option.some.inj hsem ▸ hph
  | window j timeout => exact absurd hsem (Option.some_ne_none k).symm
  | locking j e => exact absurd hsem (Option.some_ne_none k).symm

/-- A wait begins. -/
theorem Inv.enter (i : Inv s) (ht : s.phase t = none) (k : κ) (timeout : ℤ) :
    Inv (s.enter t k timeout) := by
  have hout : ∀ k', t ∉ s.window k' := by
    intro k' hm
    obtain ⟨time, htime⟩ := (i.mem k' t).1 hm
    exact absurd (ht.symm.trans htime) (Option.some_ne_none _).symm
  have hpc : (s.enter t k timeout).pc = s.pc := pc_update_same (pc_of_phase ht) rfl
  refine ⟨hpc ▸ i.waiting, i.calm, i.idle, fun k' => ?_, fun k' u => ?_, i.lt⟩
  · obtain rfl | hk := eq_or_ne k' k
    · simp only [Conds.enter, update_self]
      exact List.nodup_append.2 ⟨i.nodup k', List.nodup_singleton t, fun a ha b hb => by
        rintro rfl
        exact hout k' (List.mem_singleton.1 hb ▸ ha)⟩
    · simp only [Conds.enter, update_of_ne hk]
      exact i.nodup k'
  · obtain rfl | hu := eq_or_ne u t
    · simp only [Conds.enter, update_self, Option.some.injEq, Phase.window.injEq]
      obtain rfl | hk := eq_or_ne k' k
      · simp
      · simp [update_of_ne hk, hout k', hk.symm]
    · simp only [Conds.enter, update_of_ne hu]
      rw [← i.mem]
      obtain rfl | hk := eq_or_ne k' k
      · simp [hu]
      · rw [update_of_ne hk]

omit [DecidableEq κ] in
/-- A thread has locked the mutex again. -/
theorem Inv.leave (i : Inv s) {e : ℤ} (ht : s.phase t = some (.locking k e)) : Inv (s.leave t) := by
  have hpc : (s.leave t).pc = s.pc := pc_update_same (pc_of_phase ht) rfl
  refine ⟨hpc ▸ i.waiting, i.calm, i.idle, i.nodup, fun k' u => ?_, i.lt⟩
  refine (i.mem k' u).trans ?_
  obtain rfl | hu := eq_or_ne u t
  · simp [Conds.leave, ht]
  · simp only [Conds.leave, update_of_ne hu]

omit [DecidableEq κ] in
/-- A woken thread goes on. -/
theorem wake_cases (h : s.wake t = some s') : ∃ k, s.phase t = some (.taking k) ∧
    s.stat t = .ready ∧
    s' = { s with phase := update s.phase t (some (.locking k (s.os.tasks.error t))) } := by
  unfold Conds.wake at h
  split at h
  next k hk =>
    obtain ⟨hr, h⟩ := Option.ite_none_right_eq_some.1 h
    exact ⟨k, hk, hr, (Option.some.inj h).symm⟩
  next => exact absurd h (Option.some_ne_none _).symm

omit [DecidableEq κ] in
theorem Inv.wake (i : Inv s) (h : s.wake t = some s') : Inv s' := by
  obtain ⟨k, ht, hr, rfl⟩ := wake_cases h
  have hpc : pc { s with phase := update s.phase t (some (.locking k (s.os.tasks.error t))) }
      = update s.pc t none := pc_update s t _
  refine ⟨hpc ▸ i.waiting.leave hr, i.calm, i.idle, i.nodup, fun k' u => ?_, i.lt⟩
  refine (i.mem k' u).trans ?_
  obtain rfl | hu := eq_or_ne u t
  · simp [ht]
  · simp only [update_of_ne hu]

/-- `rt_sem_take` finds a count, gives up at once, or suspends the caller. -/
theorem take_cases (h : s.take t = some s') : ∃ k timeout,
    s.phase t = some (.window k timeout) ∧ s.stat t = .ready ∧
    (0 < s.value k ∧ s' =
        { os := s.os.setValue k (s.value k - 1)
          window := update s.window k ((s.window k).erase t)
          phase := update s.phase t (some (.locking k rtEok)) } ∨
      s.value k = 0 ∧ timeout = 0 ∧ s' =
        { os := s.os
          window := update s.window k ((s.window k).erase t)
          phase := update s.phase t (some (.locking k (-rtEtimeout))) } ∨
      s.value k = 0 ∧ s' =
        { os := { s.os with
            tasks := (s.os.tasks.setError t rtEok).sleep t k (s.os.sem k).flag timeout }
          window := update s.window k ((s.window k).erase t)
          phase := update s.phase t (some (.taking k)) }) := by
  unfold Conds.take at h
  split at h
  next k timeout hk =>
    obtain ⟨hr, h⟩ := Option.ite_none_right_eq_some.1 h
    refine ⟨k, timeout, hk, hr, ?_⟩
    obtain ⟨res, hres, rfl⟩ := Option.map_eq_some_iff.1 h
    rw [Sem.rtSemTake] at hres
    split at hres
    next hv =>
      obtain rfl := Option.some.inj hres
      exact Or.inl ⟨hv, rfl⟩
    next hv =>
      have hzero : s.value k = 0 := Nat.eq_zero_of_not_pos hv
      split at hres
      next htime =>
        obtain rfl := Option.some.inj hres
        exact Or.inr (Or.inl ⟨hzero, htime, rfl⟩)
      next =>
        obtain rfl := Option.some.inj hres
        exact Or.inr (Or.inr ⟨hzero, rfl⟩)
  next => exact absurd h (Option.some_ne_none _).symm

/-- A thread leaves the window. -/
theorem mem_erase_window (i : Inv s) {ph : Phase κ} (ht : s.phase t = some (.window k timeout))
    (hph : ∀ k' time, ph ≠ .window k' time) (k' : κ) (u : τ) :
    u ∈ update s.window k ((s.window k).erase t) k'
      ↔ ∃ time, update s.phase t (some ph) u = some (.window k' time) := by
  obtain rfl | hu := eq_or_ne u t
  · simp only [update_self, Option.some.injEq, hph, exists_false, iff_false]
    obtain rfl | hk := eq_or_ne k' k
    · rw [update_self]
      exact (i.nodup k').not_mem_erase
    · rw [update_of_ne hk, i.mem]
      rintro ⟨time, htime⟩
      exact hk ((Phase.window.inj (Option.some.inj (htime.symm.trans ht))).1)
  · rw [update_of_ne hu, ← i.mem]
    obtain rfl | hk := eq_or_ne k' k
    · rw [update_self, List.mem_erase_of_ne hu]
    · rw [update_of_ne hk]

theorem nodup_erase_window (i : Inv s) (t : τ) (k k' : κ) :
    (update s.window k ((s.window k).erase t) k').Nodup := by
  obtain rfl | hk := eq_or_ne k' k
  · rw [update_self]
    exact (i.nodup k').erase t
  · rw [update_of_ne hk]
    exact i.nodup k'

theorem Inv.take (i : Inv s) (h : s.take t = some s') : Inv s' := by
  obtain ⟨k, timeout, ht, hr, ⟨hv, rfl⟩ | ⟨hv, -, rfl⟩ | ⟨hv, rfl⟩⟩ := take_cases h
  · have hpc : pc {
        os := s.os.setValue k (s.value k - 1)
        window := update s.window k ((s.window k).erase t)
        phase := update s.phase t (some (.locking k rtEok)) } = s.pc :=
      pc_update_same (pc_of_phase ht) rfl
    refine ⟨hpc ▸ i.waiting, i.calm, fun k' hv' => ?_, nodup_erase_window i t k,
      mem_erase_window i ht (by simp), fun k' => ?_⟩
    · obtain rfl | hk := eq_or_ne k' k
      · exact i.idle k' hv
      · refine i.idle k' ?_
        simpa only [value, Sem.State.setValue, update_of_ne hk] using hv'
    · have hlt := i.lt k'
      obtain rfl | hk := eq_or_ne k' k
      · simp only [value, Sem.State.setValue, update_self]
        exact (Nat.sub_le _ _).trans_lt hlt
      · simpa only [value, Sem.State.setValue, update_of_ne hk] using hlt
  · have hpc : pc { s with
        window := update s.window k ((s.window k).erase t)
        phase := update s.phase t (some (.locking k (-rtEtimeout))) } = s.pc :=
      pc_update_same (pc_of_phase ht) rfl
    exact ⟨hpc ▸ i.waiting, i.calm, i.idle, nodup_erase_window i t k,
      mem_erase_window i ht (by simp), i.lt⟩
  · have w : Waiting (s.os.tasks.setError t rtEok) s.pc := i.waiting.congr (by simp) (by simp)
    have hr' : (s.os.tasks.setError t rtEok).stat t = .ready := by simpa [stat] using hr
    obtain ⟨hs, -, he, -⟩ := sleep_fields (k := k) hr' (s.os.sem k).flag timeout
    simp only [setError_fields] at hs he
    refine ⟨?_, fun k' u hu => ?_, fun k' hv' => ?_, nodup_erase_window i t k,
      mem_erase_window i ht (by simp), i.lt⟩
    · change Waiting _ fun u => (update s.phase t (some (.taking k)) u).bind Phase.sem
      rw [pc_update]
      exact w.sleep hr' (s.os.sem k).flag timeout
    · simp only [suspended, hs] at hu
      simp only [error, he]
      obtain rfl | hut := eq_or_ne u t
      · rw [update_self]
      · rw [update_of_ne hut]
        obtain rfl | hk := eq_or_ne k' k
        · rw [update_self, mem_insertWaiter] at hu
          exact i.calm k' u (hu.resolve_left hut)
        · rw [update_of_ne hk] at hu
          exact i.calm k' u hu
    · have hk : k' ≠ k := by
        rintro rfl
        exact absurd hv hv'.ne'
      simp only [suspended, hs, update_of_ne hk]
      exact i.idle k' hv'

/-- What a call of `rt_sem_take` changes: it takes a count, or gives up, or goes to sleep. -/
inductive Taken (s : Conds κ τ) (t : τ) (k : κ) (timeout : ℤ) (s' : Conds κ τ) : Prop
  | counted (hv : 0 < s.value k) (value : s'.value = update s.value k (s.value k - 1))
    (suspended : s'.suspended = s.suspended) (error : s'.error = s.error)
    (phase : s'.phase = update s.phase t (some (.locking k rtEok)))
  | refused (hv : s.value k = 0) (htime : timeout = 0) (value : s'.value = s.value)
    (suspended : s'.suspended = s.suspended) (error : s'.error = s.error)
    (phase : s'.phase = update s.phase t (some (.locking k (-rtEtimeout))))
  | slept {l : List τ} (hv : s.value k = 0) (value : s'.value = s.value)
    (perm : l.Perm (t :: s.suspended k)) (suspended : s'.suspended = update s.suspended k l)
    (error : s'.error = update s.error t rtEok)
    (phase : s'.phase = update s.phase t (some (.taking k)))

theorem Inv.taken (i : Inv s) (h : s.take t = some s') : ∃ k timeout,
    s.phase t = some (.window k timeout) ∧ t ∈ s.window k ∧
    s'.window = update s.window k ((s.window k).erase t) ∧ Taken s t k timeout s' := by
  obtain ⟨k, timeout, ht, hr, hcases⟩ := take_cases h
  refine ⟨k, timeout, ht, (i.mem k t).2 ⟨timeout, ht⟩, ?_⟩
  obtain ⟨hv, rfl⟩ | ⟨hv, htime, rfl⟩ | ⟨hv, rfl⟩ := hcases
  · refine ⟨rfl, Taken.counted hv ?_ rfl rfl rfl⟩
    funext k'
    obtain rfl | hk := eq_or_ne k' k
    · simp only [value, Sem.State.setValue, update_self]
    · simp only [value, Sem.State.setValue, update_of_ne hk]
  · exact ⟨rfl, Taken.refused hv htime rfl rfl rfl rfl⟩
  · have hr' : (s.os.tasks.setError t rtEok).stat t = .ready := by simpa [stat] using hr
    obtain ⟨hs, -, he, -⟩ := sleep_fields (k := k) hr' (s.os.sem k).flag timeout
    simp only [setError_fields] at hs he
    exact ⟨rfl, Taken.slept hv rfl (insertWaiter_perm _ _ _ _) hs he rfl⟩

/-- A signal wakes the first thread of the list. -/
theorem signal_cons {l : List τ} (hl : s.os.tasks.suspended k = t :: l) :
    pthreadCondSignal k s.os = { s.os with tasks := s.os.tasks.resume t } := by
  have hne : s.os.tasks.suspended k ≠ [] := hl ▸ List.cons_ne_nil t l
  rw [pthreadCondSignal, Sem.rtSemRelease, if_pos hne, Tasks.ipcResume, hl]
  rfl

/-- With nobody on the list it is counted. -/
theorem signal_nil (os : Sem.State κ τ) (hl : os.tasks.suspended k = []) :
    pthreadCondSignal k os = os.setValue k (((os.sem k).value + 1) % 65536) := by
  rw [pthreadCondSignal, Sem.rtSemRelease, if_neg (not_not.2 hl)]
  rfl

theorem Inv.resume (i : Inv s) {l : List τ} (hl : s.os.tasks.suspended k = t :: l) :
    Inv { s with os := { s.os with tasks := s.os.tasks.resume t } }
      ∧ (s.os.tasks.resume t).suspended = update s.os.tasks.suspended k l
      ∧ (s.os.tasks.resume t).error = s.os.tasks.error := by
  have ht : t ∈ s.os.tasks.suspended k := hl ▸ List.mem_cons_self
  obtain ⟨hs, -, he, -⟩ := resume_fields (i.waiting.mem ht).2
  have hlist := hs
  rw [i.waiting.without_eq_update ht, hl, List.erase_cons_head] at hlist
  refine ⟨⟨i.waiting.resume ht, fun k' u hu => ?_, fun k' hv => ?_, i.nodup, i.mem, i.lt⟩, hlist, he⟩
  · simp only [suspended, hs] at hu
    simp only [error, he]
    exact i.calm k' u (List.mem_of_mem_erase hu)
  · simp only [suspended, hs, without]
    rw [show s.os.tasks.suspended k' = [] from i.idle k' hv, List.erase_nil]

omit [DecidableEq τ] in
theorem Inv.setValue (i : Inv s) {n : ℕ} (hl : 0 < n → s.suspended k = []) (hn : n < 2 ^ 16) :
    Inv { s with os := s.os.setValue k n } := by
  refine ⟨i.waiting, i.calm, fun k' hv => ?_, i.nodup, i.mem, fun k' => ?_⟩
  · obtain rfl | hk := eq_or_ne k' k
    · simp only [value, Sem.State.setValue, update_self] at hv
      exact hl hv
    · refine i.idle k' ?_
      simpa only [value, Sem.State.setValue, update_of_ne hk] using hv
  · obtain rfl | hk := eq_or_ne k' k
    · simp only [value, Sem.State.setValue, update_self]
      exact hn
    · simpa only [value, Sem.State.setValue, update_of_ne hk] using i.lt k'

theorem Inv.signal (i : Inv s) (k : κ) : Inv (s.signal k) := by
  unfold Conds.signal
  cases hl : s.os.tasks.suspended k with
  | nil =>
    rw [signal_nil s.os hl]
    exact i.setValue (fun _ => hl) (Nat.mod_lt _ (by decide))
  | cons t l =>
    rw [signal_cons hl]
    exact (i.resume hl).1

/-- What a signal changes: it wakes the first thread, or is counted. -/
theorem Inv.signal_fields (i : Inv s) (k : κ) :
    (∃ t l, s.suspended k = t :: l ∧ (s.signal k).suspended = update s.suspended k l ∧
      (s.signal k).value = s.value ∧ (s.signal k).error = s.error) ∨
    (s.suspended k = [] ∧ (s.signal k).suspended = s.suspended ∧
      (s.signal k).value = update s.value k ((s.value k + 1) % 65536) ∧
      (s.signal k).error = s.error) := by
  unfold Conds.signal
  cases hl : s.os.tasks.suspended k with
  | nil =>
    rw [signal_nil s.os hl]
    refine Or.inr ⟨hl, rfl, ?_, rfl⟩
    funext k'
    obtain rfl | hk := eq_or_ne k' k
    · simp only [value, Sem.State.setValue, update_self]
    · simp only [value, Sem.State.setValue, update_of_ne hk]
  | cons t l =>
    rw [signal_cons hl]
    obtain ⟨-, hlist, he⟩ := i.resume hl
    exact Or.inl ⟨t, l, hl, hlist, rfl, he⟩

/-- All threads of a list are woken. -/
def wakeAll (s : Conds κ τ) : List τ → Conds κ τ
  | [] => s
  | t :: l => wakeAll { s with os := { s.os with tasks := s.os.tasks.resume t } } l

theorem Inv.wakeAll (k : κ) : ∀ (l : List τ) {s : Conds κ τ}, Inv s →
    s.os.tasks.suspended k = l → Inv (s.wakeAll l)
      ∧ (s.wakeAll l).os.tasks.suspended = update s.os.tasks.suspended k []
      ∧ (s.wakeAll l).os.tasks.error = s.os.tasks.error ∧ (s.wakeAll l).os.sem = s.os.sem
      ∧ (s.wakeAll l).window = s.window ∧ (s.wakeAll l).phase = s.phase
  | [], s, i, hl => by
    refine ⟨i, ?_, rfl, rfl, rfl, rfl⟩
    exact (update_eq_self_iff.2 hl.symm).symm
  | t :: l, s, i, hl => by
    obtain ⟨i', hlist, he⟩ := i.resume hl
    obtain ⟨iw, hs, herr, hsem, hwin, hph⟩ := Inv.wakeAll k l i' (by rw [hlist, update_self])
    refine ⟨iw, ?_, herr.trans he, hsem, hwin, hph⟩
    rw [hlist, update_idem] at hs
    exact hs

omit [DecidableEq τ] in
theorem setValue_value (os : Sem.State κ τ) : os.setValue k (os.sem k).value = os := by
  rw [Sem.State.setValue, update_eq_self]

/-- `rt_sem_trytake` takes a count and it is put back, or there is none. -/
theorem broadcastLoop_pos (os : Sem.State κ τ) (hl : os.tasks.suspended k = [])
    (hv : 0 < (os.sem k).value) (hlt : (os.sem k).value < 65536) (fuel : ℕ) :
    broadcastLoop k (fuel + 1) os = os := by
  have htake : Sem.rtSemTake none k 0 os = some (some rtEok, os.setValue k ((os.sem k).value - 1)) :=
    if_pos hv
  have hback : ((os.setValue k ((os.sem k).value - 1)).sem k).value + 1 = (os.sem k).value := by
    simp only [Sem.State.setValue, update_self]
    exact Nat.sub_add_cancel hv
  have hsignal := signal_nil (os.setValue k ((os.sem k).value - 1)) hl
  rw [hback, Nat.mod_eq_of_lt hlt] at hsignal
  rw [broadcastLoop, htake]
  dsimp only
  rw [if_pos rfl, hsignal]
  simp only [Sem.State.setValue, update_self, update_idem]
  exact setValue_value os

theorem broadcastLoop_zero (os : Sem.State κ τ) (hv : (os.sem k).value = 0) (fuel : ℕ) :
    broadcastLoop k (fuel + 1) os = broadcastLoop k fuel (pthreadCondSignal k os) := by
  have htake : Sem.rtSemTake none k 0 os = some (some (-rtEtimeout), os) := by
    rw [Sem.rtSemTake, if_neg (by rw [hv]; exact lt_irrefl 0), if_pos rfl]
  rw [broadcastLoop, htake]
  exact if_neg (by decide)

/-- The loop of the broadcast wakes the threads of the list one by one, and leaves a count. -/
theorem broadcastLoop_eq (k : κ) : ∀ (l : List τ) (fuel : ℕ) {s : Conds κ τ}, Inv s →
    s.os.tasks.suspended k = l → l.length + 2 ≤ fuel →
    broadcastLoop k fuel s.os = (s.wakeAll l).os.setValue k (max (s.value k) 1)
  | _, 0, _, _, _, hfuel => absurd hfuel (by omega)
  | _, 1, _, _, _, hfuel => absurd hfuel (by omega)
  | [], fuel + 2, s, i, hl, _ => by
    have hlt := i.lt k
    obtain hzero | hpos := Nat.eq_zero_or_pos (s.value k)
    · have hone : (s.os.setValue k ((0 + 1) % 65536)).sem k = ⟨1, (s.os.sem k).flag⟩ := by
        simp only [Sem.State.setValue, update_self]
      rw [broadcastLoop_zero s.os hzero, signal_nil s.os hl, show (s.os.sem k).value = 0 from hzero,
        broadcastLoop_pos (s.os.setValue k ((0 + 1) % 65536)) hl (by rw [hone]; exact Nat.one_pos)
          (by rw [hone]; exact Nat.one_lt_succ_succ _), hzero]
      rfl
    · rw [broadcastLoop_pos s.os hl hpos hlt, max_eq_left hpos]
      exact (setValue_value s.os).symm
  | t :: l, fuel + 2, s, i, hl, hfuel => by
    have hzero : (s.os.sem k).value = 0 := by
      by_contra hv
      have hnil := i.idle k (Nat.pos_of_ne_zero hv)
      exact absurd (hl.symm.trans hnil) (List.cons_ne_nil t l)
    obtain ⟨i', hlist, -⟩ := i.resume hl
    rw [broadcastLoop_zero s.os hzero, signal_cons hl]
    refine broadcastLoop_eq k l (fuel + 1) i' (by rw [hlist, update_self]) ?_
    rw [List.length_cons] at hfuel
    omega

/-- A broadcast wakes all threads of the list, and leaves a count. -/
theorem Inv.broadcast (i : Inv s) (k : κ) : Inv (s.broadcast k)
    ∧ (s.broadcast k).suspended = update s.suspended k []
    ∧ (s.broadcast k).value = update s.value k (max (s.value k) 1)
    ∧ (s.broadcast k).error = s.error := by
  obtain ⟨iw, hs, herr, hsem, hwin, hph⟩ := Inv.wakeAll k _ i rfl
  have hos : (s.broadcast k).os
      = (s.wakeAll (s.os.tasks.suspended k)).os.setValue k (max (s.value k) 1) :=
    broadcastLoop_eq k _ _ i rfl le_rfl
  have hstate : s.broadcast k = { s.wakeAll (s.os.tasks.suspended k) with
      os := (s.wakeAll (s.os.tasks.suspended k)).os.setValue k (max (s.value k) 1) } := by
    rw [← hos]
    exact Conds.ext rfl hwin.symm hph.symm
  have hlt := i.lt k
  rw [hstate]
  refine ⟨iw.setValue (fun _ => ?_) (max_lt hlt (by decide)), hs, ?_, herr⟩
  · rw [suspended, hs, update_self]
  · funext k'
    obtain rfl | hk := eq_or_ne k' k
    · simp only [value, Sem.State.setValue, update_self]
    · simp only [value, Sem.State.setValue, update_of_ne hk, hsem]

omit [DecidableEq κ] in
/-- A timer fires. -/
theorem Inv.expire (i : Inv s) (h : s.expire t = some s') : Inv s'
    ∧ s'.suspended = without s.suspended t ∧ s'.value = s.value ∧ s'.window = s.window
    ∧ s'.phase = s.phase ∧ s'.error = update s.error t (-rtEtimeout) := by
  obtain ⟨tasks, ht, rfl⟩ := Option.map_eq_some_iff.1 h
  obtain ⟨-, hs, -, he, -⟩ := expire_fields ht
  refine ⟨⟨i.waiting.expire ht, fun k' u hu => ?_, fun k' hv => ?_, i.nodup, i.mem, i.lt⟩, hs, rfl,
    rfl, rfl, he⟩
  · simp only [suspended, hs] at hu
    have hut : u ≠ t := fun e => not_mem_without (i.waiting.nodup k') (e ▸ hu)
    rw [mem_without_of_ne hut] at hu
    simp only [error, he, update_of_ne hut]
    exact i.calm k' u hu
  · simp only [suspended, hs, without]
    rw [show s.os.tasks.suspended k' = [] from i.idle k' hv, List.erase_nil]

/-! ### Counting the threads that wait -/

/-- A thread is inside a wait on `k`. -/
def Waits (s : Conds κ τ) (k : κ) (t : τ) : Prop := ∃ ph, s.phase t = some ph ∧ ph.cond = k

/-- As many threads wait on `k` as `n` says. -/
def Counted (s : Conds κ τ) (k : κ) (n : ℤ) : Prop :=
  ∃ l : List τ, l.Nodup ∧ (∀ t, t ∈ l ↔ s.Waits k t) ∧ n = l.length

omit [DecidableEq κ] [DecidableEq τ] in
theorem Counted.congr {n : ℤ} (h : s.Counted k n) (hw : ∀ t, s'.Waits k t ↔ s.Waits k t) :
    s'.Counted k n := by
  obtain ⟨l, hn, hm, hl⟩ := h
  exact ⟨l, hn, fun t => (hm t).trans (hw t).symm, hl⟩

omit [DecidableEq κ] [DecidableEq τ] in
theorem Counted.zero_iff {n : ℤ} (h : s.Counted k n) : n = 0 ↔ ∀ t, ¬ s.Waits k t := by
  obtain ⟨l, -, hm, rfl⟩ := h
  rw [Int.natCast_eq_zero, List.length_eq_zero_iff, List.eq_nil_iff_forall_not_mem]
  exact forall_congr' fun t => not_congr (hm t)

omit [DecidableEq κ] [DecidableEq τ] in
theorem Counted.nonneg {n : ℤ} (h : s.Counted k n) : 0 ≤ n := by
  obtain ⟨l, -, -, rfl⟩ := h
  exact Int.natCast_nonneg _

omit [DecidableEq κ] in
/-- A thread goes on inside its wait. -/
theorem waits_move {ph ph' : Phase κ} (ht : s.phase t = some ph)
    (hs : s'.phase = update s.phase t (some ph')) (hph : ph'.cond = ph.cond) (k : κ) (u : τ) :
    s'.Waits k u ↔ s.Waits k u := by
  unfold Waits
  rw [hs]
  obtain rfl | hu := eq_or_ne u t
  · simp [ht, hph]
  · rw [update_of_ne hu]

omit [DecidableEq κ] in
theorem waits_wake (h : s.wake t = some s') (k : κ) (u : τ) : s'.Waits k u ↔ s.Waits k u := by
  obtain ⟨j, ht, hr, rfl⟩ := wake_cases h
  exact waits_move ht (show _ = update s.phase t (some (Phase.locking j _)) from rfl) rfl k u

/-- A thread begins to wait. -/
theorem Counted.enter {n : ℤ} (h : s.Counted k n) (ht : s.phase t = none) (timeout : ℤ) :
    (s.enter t k timeout).Counted k (n + 1) := by
  obtain ⟨l, hn, hm, rfl⟩ := h
  have hout : t ∉ l := fun hin => by
    obtain ⟨ph, hph, -⟩ := (hm t).1 hin
    exact absurd (ht.symm.trans hph) (Option.some_ne_none _).symm
  refine ⟨t :: l, List.nodup_cons.2 ⟨hout, hn⟩, fun u => ?_, by simp⟩
  rw [List.mem_cons, hm]
  unfold Waits Conds.enter
  obtain rfl | hu := eq_or_ne u t
  · simp [Phase.cond]
  · simp [hu]

theorem Counted.enter_ne {n : ℤ} (h : s.Counted k n) (ht : s.phase t = none) (hk : k ≠ k')
    (timeout : ℤ) : (s.enter t k' timeout).Counted k n := by
  refine h.congr fun u => ?_
  unfold Waits Conds.enter
  obtain rfl | hu := eq_or_ne u t
  · simp [ht, Phase.cond, hk.symm]
  · simp [hu]

omit [DecidableEq κ] in
/-- A thread has waited. -/
theorem Counted.leave {n : ℤ} (h : s.Counted k n) (ht : s.Waits k t) :
    (s.leave t).Counted k (n - 1) := by
  obtain ⟨l, hn, hm, rfl⟩ := h
  refine ⟨l.erase t, hn.erase t, fun u => ?_, ?_⟩
  · rw [hn.mem_erase_iff, hm]
    unfold Waits Conds.leave
    obtain rfl | hu := eq_or_ne u t
    · simp
    · simp [hu]
  · have hlen := List.length_erase_add_one ((hm t).2 ht)
    omega

omit [DecidableEq κ] in
theorem Counted.leave_ne {n : ℤ} (h : s.Counted k n) (ht : ¬ s.Waits k t) :
    (s.leave t).Counted k n := by
  refine h.congr fun u => ?_
  unfold Waits Conds.leave
  obtain rfl | hu := eq_or_ne u t
  · refine iff_of_false ?_ ht
    simp
  · simp [hu]

end Conds

end EasyCore.Pthreads
