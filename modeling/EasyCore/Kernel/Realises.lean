import EasyCore.Kernel.PrioList
import EasyCore.Kernel.SchedRun

/-! The kernel acts on the table of the threads as `Tasks` says, with its invariant kept all along.
    Scheduling leaves the table alone, so a run of an IPC object may let any ready thread go on
    next, whichever one `rt_schedule` would pick. -/

namespace EasyCore.Ipc
open Function EasyCore.Links EasyCore.Kernel EasyCore.Runs

variable {κ τ : Type*} [DecidableEq κ] [DecidableEq τ] {pmax : ℕ} {K : τ → Prop} {s s' : KState κ τ}
  {a : Tasks κ τ} {t : τ} {k : κ}

/-- The kernel state `s`, its invariant included, holds the table `a`. -/
def Realises (pmax : ℕ) (K : τ → Prop) (s : KState κ τ) (a : Tasks κ τ) : Prop :=
  ∃ L, SchedInv pmax s K L ∧ a = ⟨s.thread, fun k => L (.suspended k)⟩

omit [DecidableEq κ] in
/-- Stores that change neither the state, nor the priorities, nor the masks of a thread. -/
theorem Realises.modThread (h : Realises pmax K s a) {f : Thread → Thread}
    (hst : ∀ th, (f th).stat = th.stat) (hp : ∀ th, (f th).currentPriority = th.currentPriority)
    (hi : ∀ th, (f th).initPriority = th.initPriority)
    (hm : ∀ th, th.MaskOk pmax → (f th).MaskOk pmax) :
    Realises pmax K (s.modThread t f) (a.modThread t f) := by
  obtain ⟨L, i, rfl⟩ := h
  refine ⟨L, i.of_core t (i.core.congr (fun _ _ => rfl) rfl rfl rfl) (fun _ _ => Iff.rfl) id
    (fun u hu => ?_) (fun _ _ _ _ => Iff.rfl) ?_ rfl, rfl⟩
  · simp [update_of_ne hu]
  · have pl := i.placed t
    rw [(KState.modThread_fields s t f).2.1, update_self]
    exact ⟨fun hV ho => (hst _).trans (pl.listed hV ho), fun hq ho => (hp _).trans (pl.own hq ho),
      fun hK hr => by
        rw [hst] at hr
        rw [hp]
        exact pl.ready hK hr,
      fun hK hr => by
        rw [hst] at hr
        exact hm _ (pl.maskOk hK hr),
      fun hK => by
        rw [hp, hi]
        exact pl.prio hK⟩

omit [DecidableEq κ] in
theorem Realises.setError (h : Realises pmax K s a) (e : ℤ) :
    Realises pmax K (s.modThread t fun th => { th with error := e }) (a.setError t e) :=
  h.modThread (fun _ => rfl) (fun _ => rfl) (fun _ => rfl) fun _ hm => hm.congr rfl rfl rfl rfl

omit [DecidableEq κ] in
theorem Realises.timerStart (h : Realises pmax K s a) :
    Realises pmax K (s.modThread t fun th => { th with timer := true }) (a.timerStart t) :=
  h.modThread (fun _ => rfl) (fun _ => rfl) (fun _ => rfl) fun _ hm => hm.congr rfl rfl rfl rfl

theorem Realises.resume (h : Realises pmax K s a) (hK : K t) :
    Realises pmax K (rtThreadResume pmax t s).2 (a.resume t) := by
  by_cases hr : a.stat t = .suspend
  · obtain ⟨L, i, rfl⟩ := h
    obtain ⟨j, hth⟩ := i.resume hK hr
    refine ⟨_, j, ?_⟩
    rw [Tasks.resume, if_neg (not_not.2 hr), hth]
    simp only [Tasks.modThread, Tasks.mk.injEq, true_and]
    funext k
    rw [enqueue_ready_suspended]
    rfl
  · rw [Tasks.resume, if_pos hr]
    obtain ⟨L, i, rfl⟩ := h
    have hst : (s.thread t).stat ≠ .suspend := hr
    rw [rtThreadResume, if_pos hst]
    exact ⟨L, i, rfl⟩

theorem Realises.timeout (h : Realises pmax K s a) (hmax : pmax ≤ 256) (hK : K t)
    (ht : rtThreadTimeout pmax t s = some s') :
    ∃ a', a.timeout t = some a' ∧ Realises pmax K s' a' := by
  obtain ⟨L, i, rfl⟩ := h
  obtain ⟨hst, j, hth⟩ := i.timeout hmax hK ht
  refine ⟨_, if_pos hst, _, j, ?_⟩
  rw [hth]
  simp only [Tasks.modThread, Tasks.mk.injEq, true_and]
  funext k
  rw [enqueue_ready_suspended]
  rfl

/-- The timer of a thread fires: its function, then its flag. -/
theorem Realises.expire (h : Realises pmax K s a) (hmax : pmax ≤ 256) (hK : K t)
    (htm : (s.thread t).timer = true) (ht : rtThreadTimeout pmax t s = some s') :
    ∃ a', a.expire t = some a' ∧
      Realises pmax K (s'.modThread t fun th => { th with timer := false }) a' := by
  obtain ⟨a', ha, h'⟩ := h.timeout hmax hK ht
  obtain ⟨L, i, rfl⟩ := h
  refine ⟨_, ?_, h'.modThread (fun _ => rfl) (fun _ => rfl) (fun _ => rfl)
    fun _ hm => hm.congr rfl rfl rfl rfl⟩
  rw [Tasks.expire, if_pos htm, ha]
  rfl

theorem Realises.changePriority (h : Realises pmax K s a) (hK : K t) {arg : ℕ} (harg : arg < pmax) :
    Realises pmax K (Kernel.changePriority pmax t arg s) (a.changePriority t pmax arg) := by
  obtain ⟨L, i, rfl⟩ := h
  obtain ⟨L', j, hL⟩ := i.priority hK harg
  refine ⟨L', j, ?_⟩
  rw [SchedInv.changePriority_thread]
  simp [Tasks.changePriority, Tasks.modThread, hL]

theorem Realises.ipcSuspend (h : Realises pmax K s a) (hK : K t) (hr : a.stat t = .ready) {flag : IpcFlag} {fuel : ℕ}
    (hf : (a.suspended k).length < fuel) :
    ∃ s', rtIpcListSuspend pmax fuel k t flag s = some s' ∧
      Realises pmax K s' (a.ipcSuspend t k flag) := by
  obtain ⟨L, i, rfl⟩ := h
  obtain ⟨s', b, c, hs, hL, j, hth, hw⟩ := i.ipcSuspend hK hr hf
  refine ⟨s', hs, _, j, ?_⟩
  have hwait : insertWaiter flag (fun u => (s.thread u).currentPriority) t (L (.suspended k)) =
      b ++ t :: c := by
    cases flag with
    | fifo =>
      obtain rfl := hw.fifo rfl
      simp [insertWaiter, hL]
    | prio =>
      rw [insertWaiter, hL]
      exact insertPrio_split (hw.behind rfl) (hw.before rfl)
  rw [Tasks.ipcSuspend, Tasks.suspend, if_neg (not_not.2 hr), hth]
  simp only [Tasks.modThread, Tasks.mk.injEq, true_and]
  funext k'
  by_cases hk : k' = k
  · subst hk
    rw [update_self, update_self]
    exact hwait
  · have hne : (Head.suspended k' : Head κ) ≠ .suspended k := fun e => hk (Head.suspended.inj e)
    have hst : (s.thread t).stat = .ready := hr
    rw [update_of_ne hk, update_of_ne hne]
    exact (without_eq (i.not_mem Head.valid_suspended (by simp [hst, Head.stat]))).symm

theorem Realises.ipcResume (h : Realises pmax K s a) {a' : Tasks κ τ}
    (ha : a.ipcResume k = some a') :
    ∃ s', rtIpcListResume pmax k s = some s' ∧ Realises pmax K s' a' := by
  obtain ⟨L, i, rfl⟩ := h
  obtain ⟨t, ht, rfl⟩ := Option.map_eq_some_iff.1 ha
  obtain ⟨l, hl⟩ := List.head?_eq_some_iff.1 ht
  have hm : t ∈ L (.suspended k) := List.mem_of_mem_head? ht
  have hK := i.core.queues.known Head.valid_suspended hm
  refine ⟨_, ?_, Realises.resume ⟨L, i, rfl⟩ hK⟩
  rw [rtIpcListResume, KState.list, i.core.queues.head_next Head.valid_suspended]
  rw [show L (.suspended k) = t :: l from hl]
  rfl

theorem Realises.ipcResumeAll (h : Realises pmax K s a) {fuel : ℕ}
    (hf : (a.suspended k).length < fuel) (hs : ∀ t ∈ a.suspended k, a.stat t = .suspend) :
    ∃ s', rtIpcListResumeAll pmax k fuel s = some s' ∧ Realises pmax K s' (a.ipcResumeAll k) := by
  unfold Tasks.ipcResumeAll
  generalize hl : a.suspended k = l at hf hs
  induction l generalizing s a fuel with
  | nil =>
    obtain ⟨fuel, rfl⟩ := Nat.exists_eq_add_of_lt hf
    obtain ⟨L, i, rfl⟩ := h
    have he := (rtListIsempty_iff i.core.queues Head.valid_suspended).2 hl
    exact ⟨s, if_pos he, L, i, rfl⟩
  | cons t l ih =>
    obtain ⟨fuel, rfl⟩ : ∃ n, fuel = n + 1 := ⟨fuel - 1, by grind⟩
    obtain ⟨hK, hn, hnd, he⟩ : K t ∧ s.links.next (.head (.suspended k)) = .item t ∧
        (t :: l).Nodup ∧ rtListIsempty s.links (.head (.suspended k)) = false := by
      obtain ⟨L, i, rfl⟩ := h
      have hL : L (.suspended k) = t :: l := hl
      have q := i.core.queues
      refine ⟨q.known Head.valid_suspended (hL ▸ List.mem_cons_self), ?_,
        hL ▸ q.nodup Head.valid_suspended, ?_⟩
      · rw [q.head_next Head.valid_suspended, hL, after_cons]
      · rw [Bool.eq_false_iff, Ne, rtListIsempty_iff q Head.valid_suspended, hL]
        exact List.cons_ne_nil t l
    have hst := hs t List.mem_cons_self
    obtain ⟨rs, rt, -⟩ := resume_fields (s := a.setError t (-rtError)) (t := t) (by simpa using hst)
    simp only [setError_fields] at rs rt
    obtain ⟨s', hr, hs'⟩ := ih (h.setError (-rtError) |>.resume hK)
      (by rw [rs, without, hl, List.erase_cons_head]) (by simpa using hf) fun u hu => by
        rw [rt, update_of_ne fun e : u = t => (List.nodup_cons.1 hnd).1 (e ▸ hu)]
        exact hs u (List.mem_cons_of_mem t hu)
    refine ⟨s', ?_, hs'⟩
    rw [rtIpcListResumeAll, if_neg (by simpa [KState.list] using he), KState.list, hn]
    exact hr

omit [DecidableEq κ] in
/-- Whichever thread runs, the table is the same. -/
theorem Realises.schedule (h : Realises pmax K s a) (hmax : pmax ≤ 256)
    (hs : rtSchedule pmax s = some s') : Realises pmax K s' a := by
  obtain ⟨L, i, rfl⟩ := h
  refine ⟨L, i.schedule hmax hs, ?_⟩
  rw [(SchedInv.schedule_fields hs).2.1]

theorem Realises.yield (h : Realises pmax K s a) (hmax : pmax ≤ 256)
    (hs : rtThreadYield pmax s = some s') : Realises pmax K s' a := by
  obtain ⟨L, i, rfl⟩ := h
  obtain ⟨L', j, hth, hL⟩ := i.yield hmax hs
  exact ⟨L', j, by simp [hth, hL]⟩

/-! ### Runs -/

/-- What the IPC objects call, and what goes on between their calls. -/
inductive KernelCall (κ τ : Type*)
  | ipc (op : PrioList.Op κ τ)
  | schedule
  | «yield»

variable (flag : κ → IpcFlag) (pmax fuel : ℕ)

/-- A call, as the kernel does it. -/
def KernelCall.kernel (s : KState κ τ) : KernelCall κ τ → Option (KState κ τ)
  | .ipc (.suspend t k time) =>
    if (s.thread t).stat = .ready then
      (rtIpcListSuspend pmax fuel k t (flag k) s).map fun s =>
        if time > 0 then s.modThread t fun th => { th with timer := true } else s
    else none
  | .ipc (.resume k) => rtIpcListResume pmax k s
  | .ipc (.resumeAll k) => rtIpcListResumeAll pmax k fuel s
  | .ipc (.resumeThread t) => some (rtThreadResume pmax t s).2
  | .ipc (.expire t) =>
    if (s.thread t).timer then
      (rtThreadTimeout pmax t s).map fun s => s.modThread t fun th => { th with timer := false }
    else none
  | .ipc (.control t arg) => some (changePriority pmax t arg s)
  | .ipc (.error t e) => some (s.modThread t fun th => { th with error := e })
  | .schedule => rtSchedule pmax s
  | .yield => rtThreadYield pmax s

/-- A call, as the table has it. -/
def KernelCall.tasks (r : PrioList.Run κ τ) : KernelCall κ τ → Option (PrioList.Run κ τ)
  | .ipc op => r.exec flag pmax op
  | .schedule | .yield => some r

/-- The threads are initialised, and there is the priority. -/
def KernelCall.Ok (K : τ → Prop) : KernelCall κ τ → Prop
  | .ipc (.suspend t _ _) | .ipc (.resumeThread t) | .ipc (.expire t) => K t
  | .ipc (.control t arg) => K t ∧ arg < pmax
  | _ => True

variable {flag pmax fuel}

omit [DecidableEq κ] [DecidableEq τ] in
theorem Realises.thread (h : Realises pmax K s a) : a.thread = s.thread := by
  obtain ⟨L, -, rfl⟩ := h
  rfl

theorem ipcResumeAll_mono {fuel' : ℕ} (hle : fuel ≤ fuel')
    (h : rtIpcListResumeAll pmax k fuel s = some s') : rtIpcListResumeAll pmax k fuel' s = some s' := by
  induction fuel generalizing s fuel' with
  | zero => cases h
  | succ fuel ih =>
    obtain ⟨fuel', rfl⟩ := Nat.exists_eq_add_of_le' (Nat.one_le_of_lt hle)
    rw [rtIpcListResumeAll] at h ⊢
    split at h
    · rw [if_pos ‹_›]
      exact h
    · rw [if_neg ‹_›]
      obtain ⟨t, ht, h⟩ := Option.bind_eq_some_iff.1 h
      exact Option.bind_eq_some_iff.2 ⟨t, ht, ih (Nat.le_of_succ_le_succ hle) h⟩

/-- What the kernel does, the table has. -/
theorem Realises.call {r : PrioList.Run κ τ} (hmax : pmax ≤ 256) {c : KernelCall κ τ}
    (hok : c.Ok pmax K) (h : Realises pmax K s r.tasks) (hs : c.kernel flag pmax fuel s = some s') :
    ∃ r', c.tasks flag pmax r = some r' ∧ Realises pmax K s' r'.tasks := by
  cases c with
  | schedule => exact ⟨r, rfl, h.schedule hmax hs⟩
  | «yield» => exact ⟨r, rfl, h.yield hmax hs⟩
  | ipc op =>
    cases op with
    | suspend t k time =>
      obtain ⟨hr, hs⟩ := Option.ite_none_right_eq_some.1 hs
      obtain ⟨s₁, hs₁, rfl⟩ := Option.map_eq_some_iff.1 hs
      have hready : r.tasks.stat t = .ready := by
        rw [Tasks.stat, h.thread]
        exact hr
      obtain ⟨s₂, hs₂, h₂⟩ : ∃ s₂, rtIpcListSuspend pmax (fuel + ((r.tasks.suspended k).length + 1)) k t
          (flag k) s = some s₂ ∧ Realises pmax K s₂ (r.tasks.ipcSuspend t k (flag k)) :=
        h.ipcSuspend hok hready (by omega)
      obtain rfl := Option.some.inj (hs₂.symm.trans (ipcSuspend_mono (Nat.le_add_right ..) hs₁))
      refine ⟨r.sleep flag t k time, if_pos hready, ?_⟩
      rw [PrioList.Run.sleep, Tasks.sleep, Tasks.startTimer]
      split
      · exact h₂.timerStart
      · exact h₂
    | resume k =>
      cases ha : r.tasks.ipcResume k with
      | none =>
        obtain ⟨L, i, htasks⟩ := h
        rw [htasks, Tasks.ipcResume, Option.map_eq_none_iff, List.head?_eq_none_iff] at ha
        dsimp only at ha
        rw [KernelCall.kernel, rtIpcListResume, KState.list, i.core.queues.head_next Head.valid_suspended,
          ha] at hs
        cases hs
      | some a' =>
        obtain ⟨s₁, hs₁, h₁⟩ := h.ipcResume ha
        obtain rfl := Option.some.inj (hs₁.symm.trans hs)
        exact ⟨r.setTasks a', congrArg (Option.map r.setTasks) ha, h₁⟩
    | resumeAll k =>
      have hwait : ∀ t ∈ r.tasks.suspended k, r.tasks.stat t = .suspend := by
        obtain ⟨L, i, htasks⟩ := h
        rw [htasks]
        exact fun t ht => (i.placed t).listed Head.valid_suspended ht
      obtain ⟨s₂, hs₂, h₂⟩ : ∃ s₂,
          rtIpcListResumeAll pmax k (fuel + ((r.tasks.suspended k).length + 1)) s = some s₂ ∧
            Realises pmax K s₂ (r.tasks.ipcResumeAll k) := h.ipcResumeAll (by omega) hwait
      obtain rfl := Option.some.inj (hs₂.symm.trans (ipcResumeAll_mono (Nat.le_add_right ..) hs))
      exact ⟨_, rfl, h₂⟩
    | resumeThread t =>
      cases hs
      exact ⟨_, rfl, h.resume hok⟩
    | expire t =>
      obtain ⟨htimer, hs⟩ := Option.ite_none_right_eq_some.1 hs
      obtain ⟨s₁, hs₁, rfl⟩ := Option.map_eq_some_iff.1 hs
      obtain ⟨a', ha, h'⟩ := h.expire hmax hok htimer hs₁
      exact ⟨r.setTasks a', congrArg (Option.map r.setTasks) ha, h'⟩
    | control t arg =>
      cases hs
      exact ⟨_, rfl, h.changePriority hok.1 hok.2⟩
    | error t e =>
      cases hs
      exact ⟨_, rfl, h.setError e⟩

/-- CORRECT: Whatever the scheduler has done before, the calls of the IPC objects, with the scheduling
    between them, do to the threads and the suspend lists of the kernel what they do to the table; and the
    invariant of the scheduler is kept. -/
theorem kernel_refines {r : Kernel.Run κ τ} (hmax : pmax ≤ 256)
    (hr : Reach (Kernel.system κ τ pmax) (Kernel.Run.opOk pmax) r) {calls : List (KernelCall κ τ)}
    (hok : ∀ c ∈ calls, c.Ok pmax (· ∈ r.threads)) {s' : KState κ τ}
    (hs : replay (KernelCall.kernel flag pmax fuel) r.kernel calls = some s') :
    ∃ a a' : PrioList.Run κ τ, Realises pmax (· ∈ r.threads) r.kernel a.tasks ∧
      replay (KernelCall.tasks flag pmax) a calls = some a' ∧
      Realises pmax (· ∈ r.threads) s' a'.tasks := by
  have hinv : r.Inv pmax := by
    refine hr.invariant (fun r hr => ⟨_, init_inv hr⟩) ?_
    rintro r op r' hi hok ⟨fuel, h⟩
    exact exec_inv hmax hi hok h
  obtain ⟨L, i⟩ := hinv
  have h : Realises pmax (· ∈ r.threads) r.kernel
      (PrioList.Run.mk ⟨r.kernel.thread, fun k => L (.suspended k)⟩ (fun _ => 0) 0).tasks := ⟨L, i, rfl⟩
  obtain ⟨a', ha', h'⟩ := replay_simulates (R := fun s (a : PrioList.Run κ τ) =>
    Realises pmax (· ∈ r.threads) s a.tasks)
    (fun c hc s s' a h hs => Realises.call hmax (hok c hc) h hs) h hs
  exact ⟨_, a', h, ha', h'⟩

/-- A thread waits, gets a higher priority, and is woken. -/
theorem kernel_refines_board : ∃ (r : Kernel.Run Unit ℕ) (s' : KState Unit ℕ)
    (a a' : PrioList.Run Unit ℕ), Realises 32 (· ∈ r.threads) r.kernel a.tasks ∧
      replay (KernelCall.tasks (fun _ => .prio) 32) a [.ipc (.suspend 1 () 5), .schedule,
        .ipc (.control 1 3), .ipc (.resume ()), .yield] = some a' ∧
      Realises 32 (· ∈ r.threads) s' a'.tasks := by
  obtain ⟨⟨r, s'⟩, hrun⟩ := Option.isSome_iff_exists.1
    (show ((replay (fun r op => Kernel.Run.execIfOk 32 9 r op) board [.init 0 true 31, .startup 0,
        .init 1 true 10, .startup 1, .start]).bind fun r =>
      if 1 ∈ r.threads then (replay (KernelCall.kernel (fun _ => .prio) 32 9) r.kernel
        [.ipc (.suspend 1 () 5), .schedule, .ipc (.control 1 3), .ipc (.resume ()), .yield]).map
          fun s => (r, s) else none).isSome = true by decide +kernel)
  obtain ⟨r, hr, hrun⟩ := Option.bind_eq_some_iff.1 hrun
  obtain ⟨hmem, hrun⟩ := Option.ite_none_right_eq_some.1 hrun
  obtain ⟨s', hs, heq⟩ := Option.map_eq_some_iff.1 hrun
  cases heq
  have hreach := Reach.of_replay (fun _ _ _ h => Kernel.Run.execIfOk_step h) _ (Reach.init board_init) hr
  obtain ⟨a, a', h⟩ := kernel_refines (by decide) hreach (by simpa [KernelCall.Ok] using hmem) hs
  exact ⟨r, s', a, a', h⟩

end EasyCore.Ipc
