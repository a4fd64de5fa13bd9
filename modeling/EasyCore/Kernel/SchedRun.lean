import EasyCore.Kernel.SchedOps
import EasyCore.Lib.Runs

/-! Runs of the scheduler: any sequence of the thread functions and `rt_schedule`, on threads that
    have been initialised, together with the time-outs and the waits on IPC objects. -/

namespace EasyCore.Kernel
open Function EasyCore.Links EasyCore.Runs

variable {κ τ : Type*} [DecidableEq κ] [DecidableEq τ]

/-- The calls of a run. `block` and `unblock` are the two list functions every IPC object uses. -/
inductive Op (κ τ : Type*)
  | init (t : τ) (systemobject : Bool) (priority : ℕ)
  | startup (t : τ)
  | start
  | schedule
  | suspend (t : τ)
  | resume (t : τ)
  | «yield»
  | control (t : τ) (cmd : ThreadCtrl)
  | detach (t : τ)
  | delete (t : τ)
  | exit
  | timeout (t : τ)
  | block (k : κ) (t : τ) (flag : IpcFlag)
  | unblock (k : κ)
  | enterCritical
  | exitCritical
  | reap

/-- A kernel and the threads that have been initialised. -/
structure Run (κ τ : Type*) where
  kernel : KState κ τ
  threads : List τ

namespace Run
variable (pmax fuel : ℕ) (r : Run κ τ)

/-- Go on with the kernel a call leaves behind. -/
def next (s : Option (KState κ τ)) : Option (Run κ τ) := s.map fun s => { r with kernel := s }

/-- Call a function on a thread that has been initialised. -/
def call (t : τ) (s : Option (KState κ τ)) : Option (Run κ τ) :=
  if t ∈ r.threads then r.next s else none

/-- One call. A thread is initialised in storage that is on no list, and `block` is called by a
    thread that runs; `fuel` bounds the search of `rt_ipc_list_suspend`. -/
def exec : Op κ τ → Option (Run κ τ)
  | .init t systemobject priority =>
    if t ∉ r.threads ∨ r.kernel.links.next (.item t) = .item t then
      (rtThreadInit pmax t systemobject priority r.kernel).map fun s => ⟨s, t :: r.threads⟩
    else none
  | .startup t => r.call t ((rtThreadStartup pmax t r.kernel).map Prod.snd)
  | .start => r.next (rtSystemSchedulerStart pmax r.kernel)
  | .schedule => r.next (rtSchedule pmax r.kernel)
  | .suspend t => r.call t (some (rtThreadSuspend pmax t r.kernel).2)
  | .resume t => r.call t (some (rtThreadResume pmax t r.kernel).2)
  | .yield => r.next (rtThreadYield pmax r.kernel)
  | .control t cmd => r.call t ((rtThreadControl pmax t cmd r.kernel).map Prod.snd)
  | .detach t => r.call t (some (rtThreadDetach pmax t r.kernel).2)
  | .delete t => r.call t (some (rtThreadDelete pmax t r.kernel).2)
  | .exit => r.next (rtThreadExit pmax r.kernel)
  | .timeout t => r.call t (rtThreadTimeout pmax t r.kernel)
  | .block k t flag =>
    if (r.kernel.thread t).stat = .ready then
      r.call t (rtIpcListSuspend pmax fuel k t flag r.kernel)
    else none
  | .unblock k => r.next (rtIpcListResume pmax k r.kernel)
  | .enterCritical => r.next (some (rtEnterCritical r.kernel))
  | .exitCritical => r.next (rtExitCritical pmax r.kernel)
  | .reap => r.next (idleReap r.kernel)

/-- A new priority is one there is, and a thread is closed with the masks of its priority, or
    where they do no harm. -/
def opOk (r : Run κ τ) : Op κ τ → Prop
  | .control _ (.changePriority arg) => arg < pmax
  | .control t .close => RemovalOk pmax r.kernel t
  | .detach t => RemovalOk pmax r.kernel t
  | .delete t => RemovalOk pmax r.kernel t
  | .exit => ∀ t ∈ r.kernel.currentThread, RemovalOk pmax r.kernel t
  | _ => True

instance (r : Run κ τ) (op : Op κ τ) : Decidable (opOk pmax r op) := by
  cases op with
  | control t cmd => cases cmd <;> unfold opOk <;> infer_instance
  | _ => unfold opOk; infer_instance

/-- One call that meets the condition. -/
def execIfOk (op : Op κ τ) : Option (Run κ τ) :=
  if r.opOk pmax op then r.exec pmax fuel op else none

end Run

/-- The runs from `rt_system_scheduler_init`, in any memory whose IPC objects are initialised. -/
def system (κ τ : Type*) [DecidableEq κ] [DecidableEq τ] (pmax : ℕ) : System (Run κ τ) (Op κ τ) where
  init r := r.threads = [] ∧ ∃ s : KState κ τ, r.kernel = rtSystemSchedulerInit pmax s ∧
    ∀ k, s.links.next (.head (.suspended k)) = .head (.suspended k) ∧
      s.links.prev (.head (.suspended k)) = .head (.suspended k)
  step r op r' := ∃ fuel, r.exec pmax fuel op = some r'

variable {pmax : ℕ} {r r' : Run κ τ} {op : Op κ τ} {L : Head κ → List τ}

/-! ### Initially -/

/-- The ready lists up to `n` are initialised, and nothing else is touched. -/
theorem init_lists (m : RtList (Node (Head κ) τ)) : ∀ (n : ℕ) (z : Node (Head κ) τ),
    ((List.range n).foldl (fun m p => rtListInit m (.head (.ready p))) m).next z =
        (if ∃ p < n, z = .head (.ready p) then z else m.next z) ∧
      ((List.range n).foldl (fun m p => rtListInit m (.head (.ready p))) m).prev z =
        if ∃ p < n, z = .head (.ready p) then z else m.prev z
  | 0, z => by simp
  | n + 1, z => by
    obtain ⟨hn, hp⟩ := init_lists m n z
    rw [List.range_succ, List.foldl_append]
    by_cases hz : z = .head (.ready n)
    · subst hz
      simp only [List.foldl_cons, List.foldl_nil, rtListInit_next, rtListInit_prev, update_self]
      have hex : ∃ p < n + 1, (.head (.ready n) : Node (Head κ) τ) = .head (.ready p) :=
        ⟨n, by omega, rfl⟩
      exact ⟨(if_pos hex).symm, (if_pos hex).symm⟩
    · have hiff : (∃ p < n + 1, z = .head (.ready p)) ↔ ∃ p < n, z = .head (.ready p) := by
        constructor
        · rintro ⟨p, hpn, rfl⟩
          exact ⟨p, by by_contra h; exact hz (by rw [show p = n by omega]), rfl⟩
        · rintro ⟨p, hpn, rfl⟩
          exact ⟨p, by omega, rfl⟩
      simp only [List.foldl_cons, List.foldl_nil, rtListInit_next, rtListInit_prev,
        update_of_ne hz, hiff]
      exact ⟨hn, hp⟩

theorem init_inv (h : (system κ τ pmax).init r) :
    SchedInv pmax r.kernel (· ∈ r.threads) fun _ => [] := by
  obtain ⟨hthr, s, hk, hw⟩ := h
  have hnext : ∀ h : Head κ, h.Valid pmax →
      (rtSystemSchedulerInit pmax s).links.next (.head h) = .head h ∧
        (rtSystemSchedulerInit pmax s).links.prev (.head h) = .head h := by
    intro h hV
    simp only [rtSystemSchedulerInit, rtListInit_next, rtListInit_prev]
    by_cases hd : h = .defunct
    · simp [hd]
    · have hne : (.head h : Node (Head κ) τ) ≠ .head .defunct := fun e => hd (Node.head.inj e)
      rw [update_of_ne hne, update_of_ne hne]
      obtain ⟨hn, hp⟩ := init_lists s.links pmax (.head h : Node (Head κ) τ)
      rw [hn, hp]
      cases h with
      | ready p => simp [Head.valid_ready.1 hV]
      | defunct => exact absurd rfl hd
      | suspended k => simp [hw k]
  rw [hk, hthr]
  refine ⟨⟨.empty (fun h hV => (hnext h hV).1) (fun h hV => (hnext h hV).2) (by simp), ?_⟩,
    fun t => ?_, fun hc => absurd hc (by simp [rtSystemSchedulerInit])⟩
  · refine ⟨fun h => h.1, fun _ p _ => ?_, fun hl i hi j _ => ?_, fun _ i _ => ?_⟩
    · simp [rtSystemSchedulerInit, Occupied]
    · simp [rtSystemSchedulerInit, Occupied, hl, hi]
    · simp [rtSystemSchedulerInit, Occupied]
  · exact ⟨fun _ ho => absurd ho List.not_mem_nil, fun _ ho => absurd ho List.not_mem_nil,
      fun hk => absurd hk List.not_mem_nil, fun hk => absurd hk List.not_mem_nil,
      fun hk => absurd hk List.not_mem_nil⟩

/-! ### One call -/

omit [DecidableEq κ] [DecidableEq τ] in
/-- A thread whose `tlist` points at itself is on no list. -/
theorem SchedInv.not_mem_of_alone {s : KState κ τ} {K : τ → Prop} {t : τ}
    (i : SchedInv pmax s K L) (ha : s.links.next (.item t) = .item t) :
    ∀ h, h.Valid pmax → t ∉ L h := by
  intro h hV ht
  obtain ⟨a, b, hL⟩ := List.append_of_mem ht
  have hnd := i.nodup hV
  rw [hL, List.nodup_middle, List.nodup_cons, List.mem_append, not_or] at hnd
  have := i.core.queues.item_next hV hL
  rw [ha] at this
  exact after_ne_item h hnd.1.2 this.symm

omit [DecidableEq κ] [DecidableEq τ] in
theorem Run.next_eq {s : Option (KState κ τ)} (h : r.next s = some r') :
    s = some r'.kernel ∧ r'.threads = r.threads := by
  obtain ⟨s', hs, rfl⟩ := Option.map_eq_some_iff.1 h
  exact ⟨hs, rfl⟩

omit [DecidableEq κ] in
theorem Run.call_eq {t : τ} {s : Option (KState κ τ)} (h : r.call t s = some r') :
    t ∈ r.threads ∧ s = some r'.kernel ∧ r'.threads = r.threads := by
  obtain ⟨ht, h⟩ := Option.ite_none_right_eq_some.1 h
  exact ⟨ht, Run.next_eq h⟩

/-- The invariant of a run. -/
def Run.Inv (pmax : ℕ) (r : Run κ τ) : Prop := ∃ L, SchedInv pmax r.kernel (· ∈ r.threads) L

omit [DecidableEq κ] [DecidableEq τ] in
/-- A call that keeps the threads and the invariant of the kernel. -/
theorem Run.Inv.of_kernel (ht : r'.threads = r.threads)
    (h : ∃ L, SchedInv pmax r'.kernel (· ∈ r.threads) L) : r'.Inv pmax := by
  rw [Run.Inv, ht]
  exact h

section Calls
variable {s s' : KState κ τ} {K : τ → Prop} {t : τ} {k : κ} (i : SchedInv pmax s K L)
include i

theorem suspend_inv (hK : K t) : ∃ L', SchedInv pmax (rtThreadSuspend pmax t s).2 K L' := by
  by_cases hr : (s.thread t).stat = .ready
  · exact ⟨_, (i.suspend hK hr).1⟩
  · rw [rtThreadSuspend, if_pos hr]
    exact ⟨L, i⟩

theorem resume_inv (hK : K t) : ∃ L', SchedInv pmax (rtThreadResume pmax t s).2 K L' := by
  by_cases hr : (s.thread t).stat = .suspend
  · exact ⟨_, (i.resume hK hr).1⟩
  · rw [rtThreadResume, if_pos hr]
    exact ⟨L, i⟩

/-- An empty suspend list has no first thread. -/
theorem ipcResume_inv (h : rtIpcListResume pmax k s = some s') : ∃ L', SchedInv pmax s' K L' := by
  cases hL : L (.suspended k) with
  | nil =>
    rw [rtIpcListResume, KState.list, i.core.queues.head_next Head.valid_suspended, hL] at h
    simp [rtListEntry] at h
  | cons t l =>
    obtain ⟨s₁, hs, j, -⟩ := i.ipcResume hL
    obtain rfl := Option.some.inj (hs.symm.trans h)
    exact ⟨_, j⟩

omit i in
/-- A search that found its place finds it with more fuel. -/
theorem findWaiter_mono {p fuel fuel' : ℕ} (hle : fuel ≤ fuel') {n m : Node (Head κ) τ}
    (h : findWaiter s k p fuel n = some m) : findWaiter s k p fuel' n = some m := by
  induction fuel generalizing fuel' n with
  | zero => simp [findWaiter] at h
  | succ fuel ih =>
    obtain ⟨f, rfl⟩ : ∃ f, fuel' = f + 1 := ⟨fuel' - 1, by omega⟩
    rw [findWaiter] at h ⊢
    split
    · rwa [if_pos ‹_›] at h
    · rw [if_neg ‹_›] at h
      obtain ⟨u, hu, h⟩ := Option.bind_eq_some_iff.1 h
      rw [hu, Option.bind_some]
      split
      · rwa [if_pos ‹_›] at h
      · rw [if_neg ‹_›] at h
        exact ih (by omega) h

omit i in
theorem ipcSuspend_mono {fuel fuel' : ℕ} (hle : fuel ≤ fuel') {flag : IpcFlag}
    (h : rtIpcListSuspend pmax fuel k t flag s = some s') :
    rtIpcListSuspend pmax fuel' k t flag s = some s' := by
  cases flag with
  | fifo => exact h
  | prio =>
    obtain ⟨n, hn, rfl⟩ := Option.map_eq_some_iff.1 h
    exact Option.map_eq_some_iff.2 ⟨n, findWaiter_mono hle hn, rfl⟩

theorem ipcSuspend_inv (hK : K t) (hr : (s.thread t).stat = .ready) {fuel : ℕ} {flag : IpcFlag}
    (h : rtIpcListSuspend pmax fuel k t flag s = some s') : ∃ L', SchedInv pmax s' K L' := by
  obtain ⟨s₁, a, b, hs, -, j, -⟩ : ∃ s₁ a b, rtIpcListSuspend pmax _ k t flag s = some s₁ ∧ _ :=
    i.ipcSuspend hK hr (Nat.lt_succ_of_le (Nat.le_add_left (L (.suspended k)).length fuel))
  obtain rfl := Option.some.inj (hs.symm.trans (ipcSuspend_mono (by omega) h))
  exact ⟨_, j⟩

theorem control_inv (hmax : pmax ≤ 256) (hK : K t) {cmd : ThreadCtrl} {res : ℤ × KState κ τ}
    (hprio : ∀ arg, cmd = .changePriority arg → arg < pmax)
    (hclose : cmd = .close → RemovalOk pmax s t)
    (h : rtThreadControl pmax t cmd s = some res) : ∃ L', SchedInv pmax res.2 K L' := by
  cases cmd with
  | startup => exact i.startup hmax hK h
  | close =>
    obtain rfl := Option.some.inj h
    exact ⟨_, i.delete hK (hclose rfl)⟩
  | changePriority arg =>
    obtain rfl := Option.some.inj h
    obtain ⟨L', j, -⟩ := i.priority hK (hprio arg rfl)
    exact ⟨L', j⟩
  | info =>
    obtain rfl := Option.some.inj h
    exact ⟨L, i⟩

omit [DecidableEq κ] [DecidableEq τ] in
theorem lockNest_inv (n : ℤ) : SchedInv pmax (s.setLockNest n) K L :=
  i.of_fields rfl rfl rfl rfl fun _ hu => i.current hu

omit [DecidableEq κ] in
theorem exitCritical_inv (hmax : pmax ≤ 256) (h : rtExitCritical pmax s = some s') :
    SchedInv pmax s' K L := by
  simp only [rtExitCritical] at h
  split at h
  · exact (lockNest_inv i 0).schedule hmax h
  · obtain rfl := Option.some.inj h
    exact lockNest_inv i _

end Calls

/-- Every call that meets the condition keeps the invariant. -/
theorem exec_inv (hmax : pmax ≤ 256) {fuel : ℕ} (hi : r.Inv pmax) (hok : r.opOk pmax op)
    (h : r.exec pmax fuel op = some r') : r'.Inv pmax := by
  obtain ⟨L, i⟩ := hi
  cases op with
  | init t systemobject priority =>
    obtain ⟨hfree, h⟩ := Option.ite_none_right_eq_some.1 h
    obtain ⟨s, hs, rfl⟩ := Option.map_eq_some_iff.1 h
    have hoff : ∀ h, h.Valid pmax → t ∉ L h := by
      rcases hfree with hnew | halone
      · exact fun h hV ht => hnew (i.core.queues.known hV ht)
      · exact i.not_mem_of_alone halone
    exact ⟨L, i.threadInit hoff (fun u hu => List.mem_cons_of_mem t hu)
      (fun u hu => List.mem_cons.1 hu) hs⟩
  | startup t =>
    obtain ⟨ht, hs, hthr⟩ := Run.call_eq h
    obtain ⟨res, hres, he⟩ := Option.map_eq_some_iff.1 hs
    exact .of_kernel hthr (he ▸ i.startup hmax ht hres)
  | start =>
    obtain ⟨hs, hthr⟩ := Run.next_eq h
    exact .of_kernel hthr ⟨L, i.schedulerStart hmax hs⟩
  | schedule =>
    obtain ⟨hs, hthr⟩ := Run.next_eq h
    exact .of_kernel hthr ⟨L, i.schedule hmax hs⟩
  | suspend t =>
    obtain ⟨ht, hs, hthr⟩ := Run.call_eq h
    exact .of_kernel hthr (Option.some.inj hs ▸ suspend_inv i ht)
  | resume t =>
    obtain ⟨ht, hs, hthr⟩ := Run.call_eq h
    exact .of_kernel hthr (Option.some.inj hs ▸ resume_inv i ht)
  | «yield» =>
    obtain ⟨hs, hthr⟩ := Run.next_eq h
    obtain ⟨L', j, -⟩ := i.yield hmax hs
    exact .of_kernel hthr ⟨L', j⟩
  | control t cmd =>
    obtain ⟨ht, hs, hthr⟩ := Run.call_eq h
    obtain ⟨res, hres, he⟩ := Option.map_eq_some_iff.1 hs
    refine .of_kernel hthr (he ▸ control_inv i hmax ht (fun arg hc => ?_) (fun hc => ?_) hres)
    · subst hc
      exact hok
    · subst hc
      exact hok
  | detach t =>
    obtain ⟨ht, hs, hthr⟩ := Run.call_eq h
    exact .of_kernel hthr (Option.some.inj hs ▸ i.detach ht hok)
  | delete t =>
    obtain ⟨ht, hs, hthr⟩ := Run.call_eq h
    exact .of_kernel hthr (Option.some.inj hs ▸ ⟨_, i.delete ht hok⟩)
  | exit =>
    obtain ⟨hs, hthr⟩ := Run.next_eq h
    exact .of_kernel hthr (i.exit hmax (fun u hu => hok u hu) hs)
  | timeout t =>
    obtain ⟨ht, hs, hthr⟩ := Run.call_eq h
    exact .of_kernel hthr ⟨_, (i.timeout hmax ht hs).2.1⟩
  | block k t flag =>
    obtain ⟨hr, h⟩ := Option.ite_none_right_eq_some.1 h
    obtain ⟨ht, hs, hthr⟩ := Run.call_eq h
    exact .of_kernel hthr (ipcSuspend_inv i ht hr hs)
  | unblock k =>
    obtain ⟨hs, hthr⟩ := Run.next_eq h
    exact .of_kernel hthr (ipcResume_inv i hs)
  | enterCritical =>
    obtain ⟨hs, hthr⟩ := Run.next_eq h
    exact .of_kernel hthr (Option.some.inj hs ▸ ⟨L, lockNest_inv i _⟩)
  | exitCritical =>
    obtain ⟨hs, hthr⟩ := Run.next_eq h
    exact .of_kernel hthr ⟨L, exitCritical_inv i hmax hs⟩
  | reap =>
    obtain ⟨hs, hthr⟩ := Run.next_eq h
    exact .of_kernel hthr (i.reap hs)

/-! ### Whole runs -/

/-- The lists `L` are the ones the links hold; the ready bits are those of the ready lists that
    hold a thread; a ready thread is on the list of its priority and on no other; and
    `rt_schedule` picks the first thread of the first ready list that holds one. -/
def SchedOk (pmax : ℕ) (r : Run κ τ) : Prop :=
  ∃ L : Head κ → List τ, Linked r.kernel.links (Head.Valid pmax) (· ∈ r.threads) L ∧
    Bitmap pmax r.kernel (Occupied pmax L) ∧
    (∀ t ∈ r.threads, (r.kernel.thread t).stat = .ready → ∀ h : Head κ, h.Valid pmax →
      (t ∈ L h ↔ h = .ready (r.kernel.thread t).currentPriority)) ∧
    (∀ t ∈ r.threads, (r.kernel.thread t).stat = .ready →
      (r.kernel.thread t).currentPriority < pmax) ∧
    (r.kernel.lockNest = 0 → (∃ p < pmax, L (.ready p) ≠ []) →
      ∃ s, rtSchedule pmax r.kernel = some s ∧
        ∃ p t, SchedInv.Selects pmax L p t ∧ s.currentThread = some t)

omit [DecidableEq κ] in
theorem Run.Inv.schedOk (hmax : pmax ≤ 256) (hi : r.Inv pmax) : SchedOk pmax r := by
  obtain ⟨L, i⟩ := hi
  exact ⟨L, i.core.queues, i.core.bitmap, fun t ht hr h hV => i.mem_ready_iff ht hr hV,
    fun t ht _ => ((i.placed t).prio ht).1, i.schedule_selects hmax⟩

theorem Run.exec_step {fuel : ℕ} (h : r.exec pmax fuel op = some r') :
    True ∧ (system κ τ pmax).step r op r' := ⟨trivial, fuel, h⟩

theorem Run.execIfOk_step {fuel : ℕ} (h : r.execIfOk pmax fuel op = some r') :
    r.opOk pmax op ∧ (system κ τ pmax).step r op r' := by
  obtain ⟨hok, h⟩ := Option.ite_none_right_eq_some.1 h
  exact ⟨hok, fuel, h⟩

/-- The memory before `rt_system_scheduler_init`, all of it zero. -/
def bootMemory : KState Unit ℕ where
  links := { next := id, prev := id }
  thread _ := ⟨.init, 0, 0, 0, 0, 0, 0, false, false, false⟩
  readyPriorityGroup := 0
  readyTable _ := 0
  lockNest := 0
  currentThread := none
  currentPriority := 0

/-- A board with 32 priorities, its scheduler initialised. -/
def board : Run Unit ℕ := ⟨rtSystemSchedulerInit 32 bootMemory, []⟩

theorem board_init : (system Unit ℕ 32).init board := ⟨rfl, bootMemory, rfl, fun _ => ⟨rfl, rfl⟩⟩

/-- Two threads run and block, change priority, and one of them is deleted. -/
def boardRun : List (Op Unit ℕ) :=
  [.init 0 true 31, .startup 0, .init 1 true 10, .startup 1, .start, .init 2 false 10, .startup 2,
    .yield, .block () 2 .prio, .schedule, .control 1 (.changePriority 12), .unblock (), .schedule,
    .suspend 2, .schedule, .delete 2, .exit]

/-- CORRECT: in every run whose calls meet the condition, after every call. -/
theorem schedOk_of_opOk (hmax : pmax ≤ 256) (h : Reach (system κ τ pmax) (Run.opOk pmax) r) :
    SchedOk pmax r := by
  refine Run.Inv.schedOk hmax (h.invariant (fun r hr => ⟨_, init_inv hr⟩) ?_)
  rintro r op r' hi hok ⟨fuel, h⟩
  exact exec_inv hmax hi hok h

theorem schedOk_of_opOk_board :
    ∃ r, replay (fun r op => Run.execIfOk 32 9 r op) board boardRun = some r ∧ SchedOk 32 r := by
  obtain ⟨r, hr⟩ := Option.isSome_iff_exists.1
    (show (replay (fun r op => Run.execIfOk 32 9 r op) board boardRun).isSome = true by
      decide +kernel)
  exact ⟨r, hr, schedOk_of_opOk (by decide)
    (Reach.of_replay (fun _ _ _ h => Run.execIfOk_step h) _ (Reach.init board_init) hr)⟩

/-- A thread of priority 10 is detached, initialised again with priority 20 and detached before it
    is started: its stale mask clears the bit of priority 10, where thread 3 is ready. -/
theorem detach_strands : ¬∀ r, Reachable (system Unit ℕ 32) r → SchedOk 32 r := by
  intro hall
  have hrun : ((replay (fun r op => Run.exec 32 9 r op) board
      [.init 0 true 31, .startup 0, .start, .init 2 true 10, .startup 2, .detach 2, .schedule,
        .init 3 true 10, .startup 3, .init 2 true 20, .detach 2]).map fun r =>
      (r.kernel.readyPriorityGroup.getLsbD 10,
        decide (r.kernel.links.next (.head (.ready 10)) = .item 3))) = some (false, true) := by
    decide +kernel
  obtain ⟨r, hr, he⟩ := Option.map_eq_some_iff.1 hrun
  obtain ⟨hbit, hnext⟩ : r.kernel.readyPriorityGroup.getLsbD 10 = false ∧
      r.kernel.links.next (.head (.ready 10)) = .item 3 := by
    simpa only [Prod.mk.injEq, decide_eq_true_iff] using he
  have hreach : Reachable (system Unit ℕ 32) r :=
    Reach.of_replay (fun _ _ _ h => Run.exec_step h) _ (Reach.init board_init) hr
  obtain ⟨L, q, b, -⟩ := hall r hreach
  have hocc : Occupied 32 L 10 := by
    refine ⟨by decide, fun hnil => ?_⟩
    have hhd := q.head_next (h := .ready 10) (Head.valid_ready.2 (by decide))
    rw [hnext, hnil] at hhd
    exact absurd hhd (by simp)
  have := (b.small (by decide) 10 (by decide)).2 hocc
  rw [hbit] at this
  exact absurd this (by decide)

end EasyCore.Kernel
