import EasyCore.Kernel.Waiting
import EasyCore.Lib.Runs

/-! Semaphores (`src/ipc.c`, `rt_sem_*`).

    A blocking `rt_sem_take` is two steps: up to its `rt_schedule`, and from there on, when the
    caller is ready again. Between them a release may have handed it the token or its timer may
    have fired. Every other call runs with interrupts disabled and is one step. -/

namespace EasyCore.Ipc.Sem
open Function EasyCore.Links EasyCore.Kernel EasyCore.Runs

/-- `struct rt_semaphore`; `value` is 16 bits wide. -/
structure RtSemaphore where
  value : ℕ
  flag : IpcFlag

/-- The threads and the semaphores. -/
structure State (κ τ : Type*) where
  tasks : Tasks κ τ
  sem : κ → RtSemaphore

variable {κ τ : Type*}

/-- `rt_sem_init` and `rt_sem_create`: a 32-bit value is stored in 16 bits. -/
def rtSemInit (value : ℕ) (flag : IpcFlag) : RtSemaphore := ⟨value % 65536, flag⟩

section Calls
variable [DecidableEq κ] [DecidableEq τ]

/-- Store into `value`. -/
def State.setValue (s : State κ τ) (k : κ) (n : ℕ) : State κ τ :=
  { s with sem := update s.sem k { s.sem k with value := n } }

/-- `rt_sem_take` up to its `rt_schedule`: the result, if the caller does not wait. The caller is
    a thread or, without one, an interrupt handler, which must not wait. -/
def rtSemTake (c : Option τ) (k : κ) (time : ℤ) (s : State κ τ) :
    Option (Option ℤ × State κ τ) :=
  if (s.sem k).value > 0 then some (some rtEok, s.setValue k ((s.sem k).value - 1))
  else if time = 0 then some (some (-rtEtimeout), s)
  else c.map fun thread =>
    let tasks := s.tasks.setError thread rtEok
    (none, { s with tasks := tasks.sleep thread k (s.sem k).flag time })

/-- `rt_sem_release`. -/
def rtSemRelease (k : κ) (s : State κ τ) : Option (ℤ × State κ τ) :=
  if s.tasks.suspended k ≠ [] then
    (s.tasks.ipcResume k).map fun tasks => (rtEok, { s with tasks := tasks })
  else some (rtEok, s.setValue k (((s.sem k).value + 1) % 65536))

end Calls

/-! ### Runs -/

/-- What happens: calls by a thread or an interrupt handler, a thread going on after the
    `rt_schedule` of its `rt_sem_take`, and the timer of a thread. -/
inductive Op (κ τ : Type*)
  | take (c : Option τ) (k : κ) (time : ℤ)
  | goOn (t : τ)
  | release (c : Option τ) (k : κ)
  | expire (t : τ)

/-- The state, the semaphore on which the call of a thread waits, and the calls that have returned
    `RT_EOK`. -/
structure Run (κ τ : Type*) where
  os : State κ τ
  pc : τ → Option κ
  released : κ → ℕ
  taken : κ → ℕ

section Exec
variable [DecidableEq κ] [DecidableEq τ]

/-- One more call that returned `e`. -/
def count (n : κ → ℕ) (k : κ) (e : Option ℤ) : κ → ℕ :=
  if e = some rtEok then update n k (n k + 1) else n

/-- A caller that waits is inside its call. -/
def enter (pc : τ → Option κ) (c : Option τ) (k : κ) (e : Option ℤ) : τ → Option κ :=
  match c, e with
  | some t, none => update pc t (some k)
  | _, _ => pc

/-- One step of a run and the value returned in it. -/
def Run.exec (r : Run κ τ) : Op κ τ → Option (Option ℤ × Run κ τ)
  | .take c k time =>
    if r.os.tasks.Free r.pc c then
      (rtSemTake c k time r.os).map fun (e, os) =>
        (e, { r with os := os, pc := enter r.pc c k e, taken := count r.taken k e })
    else none
  | .goOn t => (r.pc t).bind fun k =>
    if r.os.tasks.stat t = .ready then
      let e := some (r.os.tasks.error t)
      some (e, { r with pc := update r.pc t none, taken := count r.taken k e })
    else none
  | .release c k =>
    if r.os.tasks.Free r.pc c then
      (rtSemRelease k r.os).map fun (e, os) =>
        (some e, { r with os := os, released := count r.released k (some e) })
    else none
  | .expire t => (r.os.tasks.expire t).map fun tasks =>
      (none, { r with os := { r.os with tasks := tasks } })

/-- The semaphores just initialised with the values `v₀`, nobody waiting. -/
def Run.Init (v₀ : κ → ℕ) (r : Run κ τ) : Prop :=
  (∀ k, r.os.tasks.suspended k = []) ∧ (∀ k, ∃ flag, r.os.sem k = rtSemInit (v₀ k) flag) ∧
    (∀ t, r.pc t = none) ∧ (∀ k, r.released k = 0) ∧ ∀ k, r.taken k = 0

/-- The runs of any number of threads on any number of semaphores. -/
def system (v₀ : κ → ℕ) : System (Run κ τ) (Op κ τ) where
  init := Run.Init v₀
  step r op r' := ∃ e, r.exec op = some (e, r')

end Exec

/-! ### What a step can do -/

section Cases
variable [DecidableEq κ] [DecidableEq τ] {r r' : Run κ τ} {c : Option τ} {t : τ} {k k' : κ}
  {time : ℤ} {e : Option ℤ}

omit [DecidableEq τ] in
@[simp] theorem setValue_tasks (s : State κ τ) (n : ℕ) : (s.setValue k n).tasks = s.tasks := rfl

omit [DecidableEq τ] in
@[simp] theorem setValue_sem (s : State κ τ) (n : ℕ) :
    (s.setValue k n).sem = update s.sem k { s.sem k with value := n } := rfl

theorem count_self (n : κ → ℕ) : count n k (some rtEok) k = n k + 1 := by simp [count]

theorem count_of_ne (n : κ → ℕ) (hk : k' ≠ k) : count n k e k' = n k' := by
  unfold count
  split
  · exact update_of_ne hk _ _
  · rfl

theorem count_failed (n : κ → ℕ) (he : e ≠ some rtEok) : count n k e = n := if_neg he

/-- A take finds a token, gives up at once, or goes to sleep. -/
theorem take_cases (h : r.exec (.take c k time) = some (e, r')) : r.os.tasks.Free r.pc c ∧
    (0 < (r.os.sem k).value ∧ e = some rtEok ∧
        r' = { r with os := r.os.setValue k ((r.os.sem k).value - 1),
                      taken := count r.taken k (some rtEok) } ∨
      e = some (-rtEtimeout) ∧ r' = r ∨
      (r.os.sem k).value = 0 ∧ e = none ∧ ∃ t, c = some t ∧
        r' = { r with os := { r.os with tasks :=
                                (r.os.tasks.setError t rtEok).sleep t k (r.os.sem k).flag time },
                      pc := update r.pc t (some k) }) := by
  obtain ⟨hf, h⟩ := Option.ite_none_right_eq_some.1 h
  refine ⟨hf, ?_⟩
  obtain ⟨⟨e', os⟩, ht, he⟩ := Option.map_eq_some_iff.1 h
  obtain ⟨rfl, rfl⟩ := Prod.mk.inj he
  rw [rtSemTake] at ht
  split at ht
  next hv =>
    obtain ⟨rfl, rfl⟩ := Prod.mk.inj (Option.some.inj ht)
    exact .inl ⟨hv, rfl, by cases c <;> rfl⟩
  next hv =>
    right
    split at ht
    · obtain ⟨rfl, rfl⟩ := Prod.mk.inj (Option.some.inj ht)
      exact .inl ⟨rfl, by cases c <;> rfl⟩
    · obtain ⟨t, rfl, hs⟩ := Option.map_eq_some_iff.1 ht
      obtain ⟨rfl, rfl⟩ := Prod.mk.inj hs
      exact .inr ⟨by omega, rfl, t, rfl, rfl⟩

/-- A release wakes the first waiter or adds a token. -/
theorem release_cases (h : r.exec (.release c k) = some (e, r')) : e = some rtEok ∧
    ((∃ t l, r.os.tasks.suspended k = t :: l ∧
        r' = { r with os := { r.os with tasks := r.os.tasks.resume t },
                      released := count r.released k (some rtEok) }) ∨
      r.os.tasks.suspended k = [] ∧
        r' = { r with os := r.os.setValue k (((r.os.sem k).value + 1) % 65536),
                      released := count r.released k (some rtEok) }) := by
  obtain ⟨-, h⟩ := Option.ite_none_right_eq_some.1 h
  obtain ⟨⟨e', os⟩, hr, he⟩ := Option.map_eq_some_iff.1 h
  obtain ⟨rfl, rfl⟩ := Prod.mk.inj he
  rw [rtSemRelease] at hr
  split at hr
  next hne =>
    obtain ⟨t, l, hl⟩ := List.exists_cons_of_ne_nil hne
    rw [Tasks.ipcResume, hl] at hr
    obtain ⟨rfl, rfl⟩ := Prod.mk.inj (Option.some.inj hr)
    exact ⟨rfl, .inl ⟨t, l, hl, rfl⟩⟩
  next hn =>
    obtain ⟨rfl, rfl⟩ := Prod.mk.inj (Option.some.inj hr)
    exact ⟨rfl, .inr ⟨not_not.1 hn, rfl⟩⟩

/-- A thread that has been made ready returns its error number. -/
theorem goOn_cases (h : r.exec (.goOn t) = some (e, r')) :
    ∃ k, r.pc t = some k ∧ r.os.tasks.stat t = .ready ∧ e = some (r.os.tasks.error t) ∧
      r' = { r with pc := update r.pc t none, taken := count r.taken k e } := by
  obtain ⟨k, hk, h⟩ := Option.bind_eq_some_iff.1 h
  obtain ⟨hr, h⟩ := Option.ite_none_right_eq_some.1 h
  obtain ⟨rfl, rfl⟩ := Prod.mk.inj (Option.some.inj h)
  exact ⟨k, hk, hr, rfl, rfl⟩

theorem expire_cases (h : r.exec (.expire t) = some (e, r')) : e = none ∧
    ∃ tasks, r.os.tasks.expire t = some tasks ∧
      r' = { r with os := { r.os with tasks := tasks } } := by
  obtain ⟨tasks, ht, h⟩ := Option.map_eq_some_iff.1 h
  obtain ⟨rfl, rfl⟩ := Prod.mk.inj h
  exact ⟨rfl, tasks, ht, rfl⟩

end Cases

/-! ### Conservation -/

section Conserved
variable [DecidableEq κ] [DecidableEq τ]

/-- The tokens put into a semaphore are in its value, taken, or handed to a thread whose call has
    still to return. -/
def Run.Counts (v₀ : κ → ℕ) (r : Run κ τ) (k : κ) : Prop :=
  ∃ handed : List τ, handed.Nodup ∧ (∀ t, t ∈ handed ↔ Granted r.os.tasks r.pc k t) ∧
    v₀ k + r.released k = (r.os.sem k).value + r.taken k + handed.length

/-- No token is put in, taken or handed out. -/
structure SameTokens (r r' : Run κ τ) : Prop where
  sem : r'.os.sem = r.os.sem
  released : r'.released = r.released
  taken : r'.taken = r.taken
  granted : ∀ k t, Granted r'.os.tasks r'.pc k t ↔ Granted r.os.tasks r.pc k t

/-- Tokens are neither lost nor made up, the value is zero while a thread waits, and neither a
    timer that fires nor a call that returns `-RT_ETIMEOUT` takes one. -/
structure Conserved (v₀ : κ → ℕ) (r : Run κ τ) : Prop where
  count : ∀ k, r.Counts v₀ k
  idle : ∀ k, 0 < (r.os.sem k).value → r.os.tasks.suspended k = []
  expired : ∀ t e r', r.exec (.expire t) = some (e, r') → SameTokens r r'
  timedOut : ∀ op r', r.exec op = some (some (-rtEtimeout), r') → SameTokens r r'

/-- The value does not run over: no release comes while nobody waits and it is at the limit of its
    type. -/
def Run.opOk (r : Run κ τ) : Op κ τ → Prop
  | .release _ k => r.os.tasks.suspended k = [] → (r.os.sem k).value < 65535
  | _ => True

instance (r : Run κ τ) (op : Op κ τ) : Decidable (r.opOk op) := by
  cases op <;> unfold Run.opOk <;> infer_instance

/-- The invariant. A waiter has no error yet. -/
structure Inv (v₀ : κ → ℕ) (r : Run κ τ) : Prop where
  waiting : Waiting r.os.tasks r.pc
  calm : ∀ {k t}, t ∈ r.os.tasks.suspended k → r.os.tasks.error t = rtEok
  idle : ∀ k, 0 < (r.os.sem k).value → r.os.tasks.suspended k = []
  count : ∀ k, r.Counts v₀ k

variable {v₀ : κ → ℕ} {r r' : Run κ τ} {c : Option τ} {t : τ} {k : κ} {time : ℤ} {e : Option ℤ}

omit [DecidableEq κ] [DecidableEq τ] in
theorem SameTokens.counts (h : SameTokens r r') (hc : r.Counts v₀ k) : r'.Counts v₀ k := by
  obtain ⟨l, hn, hm, hl⟩ := hc
  refine ⟨l, hn, fun t => (hm t).trans (h.granted k t).symm, ?_⟩
  rw [h.sem, h.released, h.taken]
  exact hl

omit [DecidableEq κ] [DecidableEq τ] in
theorem SameTokens.refl (r : Run κ τ) : SameTokens r r := ⟨rfl, rfl, rfl, fun _ _ => Iff.rfl⟩

omit [DecidableEq κ] [DecidableEq τ] in
theorem init_inv (hv : ∀ k, v₀ k < 65536) (h : r.Init v₀) : Inv v₀ r where
  waiting := .empty h.1 h.2.2.1
  calm {k t} ht := by simp [h.1] at ht
  idle k _ := h.1 k
  count k := by
    obtain ⟨-, hs, hp, hr, ht⟩ := h
    obtain ⟨flag, hf⟩ := hs k
    refine ⟨[], List.nodup_nil, fun t => by simp [Granted, hp], ?_⟩
    simp [hf, hr, ht, rtSemInit, Nat.mod_eq_of_lt (hv k)]

/-- A timer that fires. -/
theorem Inv.expire (i : Inv v₀ r) (h : r.exec (.expire t) = some (e, r')) :
    Inv v₀ r' ∧ SameTokens r r' := by
  obtain ⟨-, tasks, ht, rfl⟩ := expire_cases h
  have same : SameTokens r { r with os := { r.os with tasks := tasks } } :=
    ⟨rfl, rfl, rfl, fun _ _ => granted_expire i.waiting ht⟩
  obtain ⟨-, hs, -, he, -⟩ := expire_fields ht
  refine ⟨⟨i.waiting.expire ht, fun {k u} hu => ?_, fun k hv => ?_, fun k => same.counts (i.count k)⟩,
    same⟩
  · simp only [hs] at hu
    have hut : u ≠ t := fun e => not_mem_without (i.waiting.nodup k) (e ▸ hu)
    rw [mem_without_of_ne hut] at hu
    simp only [he, update_of_ne hut]
    exact i.calm hu
  · simp only [hs, without, i.idle k hv, List.erase_nil]

omit [DecidableEq τ] in
/-- A take that finds a token. -/
theorem Inv.takeToken (i : Inv v₀ r) (hv : 0 < (r.os.sem k).value) :
    Inv v₀ { r with os := r.os.setValue k ((r.os.sem k).value - 1),
                    taken := Sem.count r.taken k (some rtEok) } where
  waiting := i.waiting
  calm := i.calm
  idle k' hv' := by
    by_cases hk : k' = k
    · subst hk
      exact i.idle k' hv
    · exact i.idle k' (by simpa [update_of_ne hk] using hv')
  count k' := by
    obtain ⟨l, hn, hm, hl⟩ := i.count k'
    refine ⟨l, hn, hm, ?_⟩
    by_cases hk : k' = k
    · subst hk
      simp only [setValue_sem, update_self, count_self]
      omega
    · simp only [setValue_sem, update_of_ne hk, count_of_ne _ hk]
      exact hl

/-- A take that goes to sleep. -/
theorem Inv.takeWait (i : Inv v₀ r) (hf : r.os.tasks.Free r.pc (some t))
    (hv : (r.os.sem k).value = 0) :
    Inv v₀ { r with os := { r.os with tasks :=
                              (r.os.tasks.setError t rtEok).sleep t k (r.os.sem k).flag time },
                    pc := update r.pc t (some k) } := by
  have w : Waiting (r.os.tasks.setError t rtEok) r.pc := i.waiting.congr (by simp) (by simp)
  have hr : (r.os.tasks.setError t rtEok).stat t = .ready := by simpa using hf.2
  obtain ⟨hs, -, he, -⟩ := sleep_fields (k := k) hr (r.os.sem k).flag time
  simp only [setError_fields] at hs he
  have hp := insertWaiter_perm (r.os.sem k).flag r.os.tasks.prio t (r.os.tasks.suspended k)
  refine ⟨w.sleep hr _ _, fun {k' u} hu => ?_, fun k' hv' => ?_, fun k' => ?_⟩
  · simp only [he]
    by_cases hut : u = t
    · rw [hut, update_self]
    · rw [update_of_ne hut]
      simp only [hs] at hu
      by_cases hk : k' = k
      · subst hk
        rw [update_self, hp.mem_iff, List.mem_cons] at hu
        exact i.calm (hu.resolve_left hut)
      · rw [update_of_ne hk] at hu
        exact i.calm hu
  · have hk : k' ≠ k := by
      rintro rfl
      exact absurd hv hv'.ne'
    simp only [hs, update_of_ne hk]
    exact i.idle k' hv'
  · obtain ⟨l, hn, hm, hl⟩ := i.count k'
    exact ⟨l, hn, fun u => (hm u).trans (granted_block hf.1 hs hp fun v hv => by
      rw [he, update_of_ne hv]).symm, hl⟩

/-- A call that has been woken returns. -/
theorem Inv.return (i : Inv v₀ r) (hk : r.pc t = some k) (hr : r.os.tasks.stat t = .ready) :
    Inv v₀ { r with pc := update r.pc t none,
                    taken := Sem.count r.taken k (some (r.os.tasks.error t)) } := by
  have hoff := i.waiting.not_mem hr
  refine ⟨i.waiting.leave hr, i.calm, i.idle, fun k' => ?_⟩
  obtain ⟨l, hn, hm, hl⟩ := i.count k'
  by_cases hg : Granted r.os.tasks r.pc k' t
  · obtain rfl : k' = k := Option.some.inj (hg.1.symm.trans hk)
    refine ⟨l.erase t, hn.erase t, fun u => ?_, ?_⟩
    · rw [hn.mem_erase_iff, hm, granted_leave, and_comm]
    · have hlen := List.length_erase_add_one ((hm t).2 hg)
      simp only [hg.2.2, count_self]
      omega
  · refine ⟨l, hn, fun u => ?_, ?_⟩
    · rw [hm, granted_leave, iff_self_and]
      rintro hu rfl
      exact hg hu
    · by_cases he : some (r.os.tasks.error t) = some rtEok
      · have hk' : k' ≠ k := by
          rintro rfl
          exact hg ⟨hk, hoff k', Option.some.inj he⟩
        simp only [count_of_ne _ hk']
        exact hl
      · simp only [count_failed _ he]
        exact hl

/-- A release that hands its token to the first waiter. -/
theorem Inv.hand (i : Inv v₀ r) {l : List τ} (hl : r.os.tasks.suspended k = t :: l) :
    Inv v₀ { r with os := { r.os with tasks := r.os.tasks.resume t },
                    released := Sem.count r.released k (some rtEok) } := by
  have ht : t ∈ r.os.tasks.suspended k := hl ▸ List.mem_cons_self
  obtain ⟨hs, -, he, -⟩ := resume_fields (i.waiting.mem ht).2
  refine ⟨i.waiting.resume ht, fun {k' u} hu => ?_, fun k' hv => ?_, fun k' => ?_⟩
  · simp only [hs] at hu
    simp only [he]
    exact i.calm (List.mem_of_mem_erase hu)
  · simp only [hs, without, i.idle k' hv, List.erase_nil]
  · obtain ⟨m, hn, hm, hc⟩ := i.count k'
    by_cases hk : k' = k
    · subst hk
      have hnew : t ∉ m := fun h => ((hm t).1 h).2.1 ht
      refine ⟨t :: m, List.nodup_cons.2 ⟨hnew, hn⟩, fun u => ?_, ?_⟩
      · rw [List.mem_cons, hm, granted_resume i.waiting ht (i.calm ht), or_comm]
        simp
      · simp only [count_self, List.length_cons]
        omega
    · refine ⟨m, hn, fun u => ?_, ?_⟩
      · rw [hm, granted_resume i.waiting ht (i.calm ht)]
        simp [hk]
      · simp only [count_of_ne _ hk]
        exact hc

omit [DecidableEq τ] in
/-- A release that adds a token. -/
theorem Inv.add (i : Inv v₀ r) (hl : r.os.tasks.suspended k = [])
    (hv : (r.os.sem k).value < 65535) :
    Inv v₀ { r with os := r.os.setValue k (((r.os.sem k).value + 1) % 65536),
                    released := Sem.count r.released k (some rtEok) } where
  waiting := i.waiting
  calm := i.calm
  idle k' hv' := by
    by_cases hk : k' = k
    · exact hk ▸ hl
    · exact i.idle k' (by simpa [update_of_ne hk] using hv')
  count k' := by
    obtain ⟨l, hn, hm, hc⟩ := i.count k'
    refine ⟨l, hn, hm, ?_⟩
    by_cases hk : k' = k
    · subst hk
      simp only [setValue_sem, update_self, count_self, Nat.mod_eq_of_lt (Nat.succ_lt_succ hv)]
      omega
    · simp only [setValue_sem, update_of_ne hk, count_of_ne _ hk]
      exact hc

/-- One step keeps the invariant. -/
theorem Inv.step (i : Inv v₀ r) {op : Op κ τ} (hok : r.opOk op) (h : r.exec op = some (e, r')) :
    Inv v₀ r' := by
  cases op with
  | take c k time =>
    obtain ⟨hf, ⟨hv, -, rfl⟩ | ⟨-, rfl⟩ | ⟨hv, -, t, rfl, rfl⟩⟩ := take_cases h
    · exact i.takeToken hv
    · exact i
    · exact i.takeWait hf hv
  | goOn t =>
    obtain ⟨k, hk, hr, rfl, rfl⟩ := goOn_cases h
    exact i.return hk hr
  | release c k =>
    obtain ⟨-, ⟨t, l, hl, rfl⟩ | ⟨hl, rfl⟩⟩ := release_cases h
    · exact i.hand hl
    · exact i.add hl (hok hl)
  | expire t => exact (i.expire h).1

/-- A call that returns `-RT_ETIMEOUT` has taken nothing. -/
theorem Inv.timedOut (i : Inv v₀ r) {op : Op κ τ}
    (h : r.exec op = some (some (-rtEtimeout), r')) : SameTokens r r' := by
  cases op with
  | take c k time =>
    obtain ⟨-, ⟨-, he, -⟩ | ⟨-, rfl⟩ | ⟨-, he, -⟩⟩ := take_cases h
    · exact absurd he (by decide)
    · exact .refl _
    · exact absurd he (by simp)
  | goOn t =>
    obtain ⟨k, -, -, he, rfl⟩ := goOn_cases h
    refine ⟨rfl, rfl, count_failed (k := k) (e := some (-rtEtimeout)) _ (by decide), fun k u => ?_⟩
    rw [granted_leave, and_iff_left_iff_imp]
    rintro hu rfl
    exact absurd (he.trans (congrArg some hu.2.2)) (by decide)
  | release c k => exact absurd (release_cases h).1 (by decide)
  | expire t => exact absurd (expire_cases h).1 (by simp)

theorem Inv.conserved (i : Inv v₀ r) : Conserved v₀ r :=
  ⟨i.count, i.idle, fun _ _ _ h => (i.expire h).2, fun _ _ h => i.timedOut h⟩

/-! ### Every run -/

theorem exec_step {op : Op κ τ} (h : (r.exec op).map Prod.snd = some r') :
    True ∧ (system v₀).step r op r' := by
  obtain ⟨⟨e, r₁⟩, hr, rfl⟩ := Option.map_eq_some_iff.1 h
  exact ⟨trivial, e, hr⟩

/-- A step that is taken only if it meets the condition. -/
def Run.execIfOk (r : Run κ τ) (op : Op κ τ) : Option (Run κ τ) :=
  if r.opOk op then (r.exec op).map Prod.snd else none

theorem execIfOk_step {op : Op κ τ} (h : r.execIfOk op = some r') :
    r.opOk op ∧ (system v₀).step r op r' := by
  obtain ⟨hok, h⟩ := Option.ite_none_right_eq_some.1 h
  exact ⟨hok, (exec_step h).2⟩

/-- One semaphore of the value `n`, and threads that are ready. -/
def board (n : ℕ) : Run Unit ℕ where
  os := { tasks := ⟨fun t => ⟨.ready, t, t, 0, 0, 0, 0, false, false, true⟩, fun _ => []⟩
          sem _ := rtSemInit n .prio }
  pc _ := none
  released _ := 0
  taken _ := 0

theorem board_init (n : ℕ) : (board n).Init fun _ => n :=
  ⟨fun _ => rfl, fun _ => ⟨.prio, rfl⟩, fun _ => rfl, fun _ => rfl, fun _ => rfl⟩

/-- CORRECT: in every run in which no value runs over, with every order of the steps. -/
theorem conserved_of_opOk (hv : ∀ k, v₀ k < 65536)
    (h : Reach (system v₀) Run.opOk r) : Conserved v₀ r := by
  refine Inv.conserved (h.invariant (fun _ hi => init_inv hv hi) ?_)
  rintro r op r' hi hok ⟨e, hs⟩
  exact hi.step hok hs

end Conserved

/-- One thread gets the token, one gets it from an interrupt handler, and one waits too long. -/
theorem conserved_of_opOk_board :
    ∃ r, replay Run.execIfOk (board 1) [.take (some 3) () (-1), .take (some 4) () 5,
        .take (some 2) () 5, .take none () 0, .release none (), .goOn 2, .expire 4, .goOn 4,
        .release (some 2) ()] = some r ∧ Conserved (fun _ => 1) r := by
  obtain ⟨r, hr⟩ := Option.isSome_iff_exists.1 (show (replay Run.execIfOk (board 1)
    [.take (some 3) () (-1), .take (some 4) () 5, .take (some 2) () 5, .take none () 0,
      .release none (), .goOn 2, .expire 4, .goOn 4, .release (some 2) ()]).isSome = true by
    decide +kernel)
  exact ⟨r, hr, conserved_of_opOk (by decide) (Reach.of_replay (fun _ _ _ h => execIfOk_step h) _
    (Reach.init (board_init 1)) hr)⟩

/-- A release at the value 65535 makes it zero. -/
theorem release_wraps : ¬∀ r, Reachable (system fun _ : Unit => 65535) (r : Run Unit ℕ) →
    Conserved (fun _ => 65535) r := by
  intro hall
  have hrun : ((board 65535).exec (.release (some 0) ())).map (fun p =>
      ((p.2.os.sem ()).value, p.2.released (), p.2.taken (), p.2.pc)) =
      some (0, 1, 0, fun _ => none) := rfl
  obtain ⟨⟨e, r⟩, hr, he⟩ := Option.map_eq_some_iff.1 hrun
  simp only [Prod.mk.injEq] at he
  obtain ⟨hv, hrel, ht, hp⟩ := he
  obtain ⟨l, -, hm, hc⟩ :=
    (hall r (.step (.init (board_init 65535)) trivial ⟨e, hr⟩)).count ()
  have hl : l = [] := List.eq_nil_iff_forall_not_mem.2 fun t h => by
    have := ((hm t).1 h).1
    rw [hp] at this
    exact absurd this (by simp)
  rw [hv, hrel, ht, hl] at hc
  exact absurd hc (by decide)

end EasyCore.Ipc.Sem
