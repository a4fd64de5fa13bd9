import EasyCore.Lib.Runs
import EasyCore.Pthreads.Takers

/-! The life of a thread (`components/pthreads/pthread.c`): what is allocated for it, and who releases
    it. A thread that has ended is put on the list of defunct threads for the idle thread, which calls
    its cleanup function; a join takes the semaphore of the thread and releases everything. -/

namespace EasyCore.Pthreads.Lifecycle
open Function Kernel Runs Ipc Links

/-- What `pthread_create` allocates: `_pthread_data_t`, the stack, `struct rt_thread`, `joinable_sem`. -/
inductive Block
  | data | stack | object | sem
  deriving DecidableEq

/-- A thread before its end; in `pthread_exit`, with its semaphore released; off the ready list for good,
    but not on the list of defunct threads; and `RT_THREAD_CLOSE`. -/
inductive Life
  | running | exiting | lost | closed
  deriving DecidableEq

/-- `attr.detachstate == PTHREAD_CREATE_JOINABLE`, `joinable_sem != RT_NULL`, `attr.stack_base == 0`,
    `cleanup != RT_NULL`, and where the thread is. -/
structure Pthread where
  joinable : Bool
  sem : Bool
  ownStack : Bool
  cleanup : Bool
  life : Life

/-- How often each block of a thread has been allocated, and freed. -/
structure Ledger where
  allocated : Block → ℕ
  freed : Block → ℕ

namespace Ledger

def alloc (l : Ledger) (k : Block) : Ledger :=
  { l with allocated := update l.allocated k (l.allocated k + 1) }

def free (l : Ledger) (k : Block) : Ledger := { l with freed := update l.freed k (l.freed k + 1) }

end Ledger

/-- The attributes of a new thread. -/
structure Attr where
  joinable : Bool
  ownStack : Bool

/-- Which allocations of a call of `pthread_create` succeed. -/
structure Mem where
  data : Bool
  stack : Bool
  object : Bool
  sem : Bool

/-- The semaphores and the threads that take them; the threads; the list of defunct threads; what has
    been allocated; whose result a join has collected; and who has been detached. -/
structure Run (τ : Type*) where
  conds : Conds τ τ
  thread : τ → Option Pthread
  defunct : List τ
  ledger : τ → Ledger
  collected : τ → Bool
  detached : τ → Bool

variable {τ : Type*}

/-- What happens: `pthread_create`; the two halves of `pthread_exit`, and whether the second is
    interrupted for good; a return; the cleanup of the idle thread; `pthread_join` up to `rt_sem_take`,
    in it, after a wake-up and after it; and `pthread_detach`. -/
inductive Op (τ : Type*)
  | create (t : τ) (attr : Attr) (mem : Mem)
  | exit (t : τ)
  | finish (t : τ) (interrupted : Bool)
  | ret (t : τ)
  | idle
  | join (c t : τ)
  | take (c : τ)
  | wake (c : τ)
  | goOn (c : τ)
  | detach (c t : τ)

/-- `pthread_create` up to `rt_thread_init`: whether all has been allocated. -/
def createBlocks (attr : Attr) (mem : Mem) (l : Ledger) : Bool × Ledger :=
  if ¬ mem.data then (false, l)
  else if attr.ownStack ∧ ¬ mem.stack then (false, (l.alloc .data).free .data)
  else if ¬ mem.object then
    if attr.ownStack then (false, (((l.alloc .data).alloc .stack).free .stack).free .data)
    else (false, (l.alloc .data).free .data)
  else if attr.joinable ∧ ¬ mem.sem then
    -- the stack is freed if it is not the one that has been allocated
    if attr.ownStack then (false, (((l.alloc .data).alloc .stack).alloc .object).free .data)
    else (false, (((l.alloc .data).alloc .object).free .stack).free .data)
  else
    (true,
      if attr.joinable then
        ((if attr.ownStack then (l.alloc .data).alloc .stack else l.alloc .data).alloc .object).alloc .sem
      else (if attr.ownStack then (l.alloc .data).alloc .stack else l.alloc .data).alloc .object)

section Exec
variable [DecidableEq τ]

/-- `pthread_create`; `rt_thread_init` and `rt_thread_startup` always return `RT_EOK`. -/
def pthreadCreate (t : τ) (attr : Attr) (mem : Mem) (r : Run τ) : Run τ :=
  if (createBlocks attr mem (r.ledger t)).1 then
    { r with
      conds := if attr.joinable then r.conds.create t else r.conds
      thread := update r.thread t (some ⟨attr.joinable, attr.joinable, attr.ownStack, true, .running⟩)
      ledger := update r.ledger t (createBlocks attr mem (r.ledger t)).2
      detached := update r.detached t !attr.joinable }
  else { r with ledger := update r.ledger t (createBlocks attr mem (r.ledger t)).2 }

/-- `rt_thread_detach`: a thread with a cleanup function is put on the list of defunct threads. -/
def rtThreadDetach (t : τ) (p : Pthread) (r : Run τ) : Run τ :=
  { r with
    thread := update r.thread t (some { p with life := .closed })
    defunct := if p.cleanup then t :: r.defunct.erase t else r.defunct.erase t }

/-- `rt_sem_delete` on the semaphore of a thread. -/
def deleteSem (t : τ) (r : Run τ) : Run τ :=
  { r with
    conds := r.conds.delete t
    ledger := update r.ledger t ((r.ledger t).free .sem) }

/-- The end of `pthread_detach` for a thread that has terminated. -/
def freeBlocks (t : τ) (p : Pthread) (r : Run τ) : Run τ :=
  { r with
    ledger := update r.ledger t
      (((if p.ownStack then (r.ledger t).free .stack else r.ledger t).free .object).free .data) }

/-- `pthread_detach` -/
def pthreadDetach (t : τ) (p : Pthread) (r : Run τ) : Run τ :=
  if p.life = .closed then
    freeBlocks t p (rtThreadDetach t p (if p.sem then deleteSem t r else r))
  else
    { deleteSem t r with thread := update r.thread t (some { p with joinable := false, sem := false }) }

/-- `_pthread_cleanup` -/
def pthreadCleanup (t : τ) (p : Pthread) (r : Run τ) : Run τ :=
  if p.joinable then
    { r with
      thread := update r.thread t (some { p with cleanup := false })
      conds := r.conds.signal t }
  else
    pthreadDetach t { p with cleanup := false }
      { r with thread := update r.thread t (some { p with cleanup := false }) }

/-- `pthread_exit` up to `rt_thread_detach`. -/
def pthreadExit (t : τ) (p : Pthread) (r : Run τ) : Run τ :=
  { r with
    thread := update r.thread t (some { p with life := .exiting })
    conds := if p.joinable then r.conds.signal t else r.conds }

/-- `rt_thread_exit`, which a thread returns to. -/
def rtThreadExit (t : τ) (p : Pthread) (r : Run τ) : Run τ :=
  { r with
    thread := update r.thread t (some { p with life := .closed })
    defunct := if p.cleanup then t :: r.defunct else r.defunct }

/-- A caller: it is inside no call, and has not ended. -/
def Run.Alive (r : Run τ) (c : τ) : Prop :=
  r.conds.phase c = none ∧ r.conds.stat c = .ready ∧ ∀ p ∈ r.thread c, p.life = .running

instance (r : Run τ) (c : τ) : Decidable (r.Alive c) := inferInstanceAs (Decidable (_ ∧ _ ∧ _))

/-- A name for a new thread. -/
def Run.Fresh (r : Run τ) (t : τ) : Prop :=
  r.thread t = none ∧ r.conds.phase t = none ∧ (r.ledger t).allocated .data = 0

/-- A `pthread_t` may be used until the thread is released. -/
def Run.Valid (r : Run τ) (t : τ) : Prop := (r.ledger t).freed .data = 0

/-- A join goes on after its `rt_sem_take`. -/
def afterTake (c t : τ) (e : ℤ) (r : Run τ) : Run τ :=
  if e = rtEok then
    (r.thread t).elim r fun p => pthreadDetach t p
      { r with conds := r.conds.leave c, collected := update r.collected t true }
  else { r with conds := r.conds.leave c }

/-- The idle thread takes a thread off the list of defunct threads. The `rt_thread` is a static object: it
    frees nothing itself. -/
def idleStep (t : τ) (rest : List τ) (r : Run τ) : Run τ :=
  (r.thread t).elim { r with defunct := rest } fun p =>
    if p.cleanup then pthreadCleanup t p { r with defunct := rest } else { r with defunct := rest }

instance (r : Run τ) (t : τ) : Decidable (r.Fresh t) :=
  haveI : Decidable (r.thread t = none) := decidable_of_iff _ Option.isNone_iff_eq_none
  inferInstanceAs (Decidable (_ ∧ _ ∧ _))

instance (r : Run τ) (t : τ) : Decidable (r.Valid t) := inferInstanceAs (Decidable (_ = _))

/-- A thread that is not there, or not able to, does nothing. -/
def Run.step (r : Run τ) : Op τ → Run τ
  | .create t attr mem => if r.Fresh t then pthreadCreate t attr mem r else r
  | .exit t => (r.thread t).elim r fun p => if r.Alive t then pthreadExit t p r else r
  | .finish t interrupted => (r.thread t).elim r fun p =>
    if p.life = .exiting then
      if interrupted then { r with thread := update r.thread t (some { p with life := .lost }) }
      else rtThreadDetach t p r
    else r
  | .ret t => (r.thread t).elim r fun p => if r.Alive t then rtThreadExit t p r else r
  | .idle =>
    match r.defunct with
    | [] => r
    | t :: rest => idleStep t rest r
  | .join c t => (r.thread t).elim r fun p =>
    if r.Alive c ∧ c ≠ t ∧ r.Valid t ∧ p.joinable then
      { r with conds := r.conds.enter c t rtWaitingForever }
    else r
  | .take c => (r.conds.take c).elim r fun conds => { r with conds := conds }
  | .wake c => (r.conds.wake c).elim r fun conds => { r with conds := conds }
  | .goOn c =>
    match r.conds.phase c with
    | some (.locking t e) => afterTake c t e r
    | _ => r
  | .detach c t => (r.thread t).elim r fun p =>
    if r.Alive c ∧ r.Valid t ∧ (p.life = .closed ∨ p.sem) then
      pthreadDetach t p { r with detached := update r.detached t true }
    else r

end Exec

/-! ### What should hold -/

/-- Nothing is freed that is not allocated, or twice; a create that fails frees what it has allocated;
    the blocks of a thread are freed after its end, and when its result has been collected or it has been
    detached, and its semaphore when it has been detached, or has ended and been joined; and as long as
    a block is not freed, the thread has not ended, or the idle thread is to call its cleanup function,
    or it can be joined, or a join is about to release it. -/
structure Good (r : Run τ) : Prop where
  balanced : ∀ t k, (r.ledger t).freed k ≤ (r.ledger t).allocated k ∧ (r.ledger t).allocated k ≤ 1
  failed : ∀ t k, r.thread t = none → (r.ledger t).freed k = (r.ledger t).allocated k
  late : ∀ t p k, r.thread t = some p → k ≠ .sem → (r.ledger t).freed k ≠ 0 →
    p.life = .closed ∧ (r.detached t = true ∨ r.collected t = true)
  semLate : ∀ t p, r.thread t = some p → (r.ledger t).freed .sem ≠ 0 →
    r.detached t = true ∨ r.collected t = true ∧ p.life ≠ .running
  kept : ∀ t p k, r.thread t = some p → (r.ledger t).freed k < (r.ledger t).allocated k →
    p.life = .running ∨ p.life = .exiting ∨ t ∈ r.defunct ∧ p.cleanup = true ∨
      p.joinable = true ∧ (0 < r.conds.value t ∨ ∃ c, r.conds.Taker t c)

/-- A thread has terminated and waits for the idle thread. -/
def Pthread.Defunct (p : Pthread) : Prop := p.life = .closed ∧ p.cleanup = true

instance (p : Pthread) : Decidable p.Defunct := inferInstanceAs (Decidable (_ ∧ _))

/-- The semaphore of a thread has not been deleted. -/
def Run.HasSem (r : Run τ) (t : τ) : Prop := (r.ledger t).freed .sem < (r.ledger t).allocated .sem

instance (r : Run τ) (t : τ) : Decidable (r.HasSem t) := Nat.decLt _ _

section Sound
variable [DecidableEq τ]

/-- The semaphore of a new thread is allocated, if all else is; a thread is not interrupted for good in
    `rt_thread_detach`; the semaphore that a join takes exists, and no two joins get a count; and no
    thread is released while it is on the list of defunct threads, or while a join has a count. -/
def Sound (r : Run τ) : Op τ → Prop
  | .create t attr mem => r.Fresh t → mem.data = true → (attr.ownStack = true → mem.stack = true) →
    mem.object = true → attr.joinable = true → mem.sem = true
  | .finish _ interrupted => interrupted = false
  | .idle => ∀ t ∈ r.defunct.head?, ∀ p ∈ r.thread t, p.joinable = true →
    r.conds.suspended t ≠ [] → ∀ c, ¬ r.conds.Taker t c
  | .take c => ∀ t timeout, r.conds.phase c = some (.window t timeout) →
    r.HasSem t ∧ (0 < r.conds.value t → ∀ c, ¬ r.conds.Taker t c)
  | .goOn c => ∀ t, r.conds.phase c = some (.locking t rtEok) → ∀ p ∈ r.thread t, ¬ p.Defunct
  | .detach c t => r.Alive c → r.Valid t → ∀ p ∈ r.thread t, ¬ p.Defunct ∧ ∀ c, ¬ r.conds.Taker t c
  | _ => True

instance [DecidableEq κ] (s : Conds κ τ) (k : κ) (t : τ) : Decidable (s.Taker k t) :=
  haveI : Decidable (t ∉ s.suspended k) := inferInstance
  inferInstanceAs (Decidable (_ ∨ _ ∧ _ ∧ _))

/-- The threads of a scenario are few. -/
instance [Fintype τ] (r : Run τ) : ∀ op, Decidable (Sound r op)
  | .create t attr mem => inferInstanceAs (Decidable (r.Fresh t → _ → _ → _ → _ → _))
  | .finish _ interrupted => inferInstanceAs (Decidable (interrupted = false))
  | .idle => inferInstanceAs (Decidable (∀ t ∈ r.defunct.head?, ∀ p ∈ r.thread t, p.joinable = true →
      r.conds.suspended t ≠ [] → ∀ c, ¬ r.conds.Taker t c))
  | .take c =>
    match h : r.conds.phase c with
    | some (.window t timeout) =>
      decidable_of_iff (r.HasSem t ∧ (0 < r.conds.value t → ∀ c, ¬ r.conds.Taker t c))
        ⟨fun hs _ _ e => (Phase.window.inj (Option.some.inj (h.symm.trans e))).1 ▸ hs,
          fun hs => hs t timeout h⟩
    | some (.taking _) => isTrue fun _ _ e => absurd (h.symm.trans e) (by simp)
    | some (.locking _ _) => isTrue fun _ _ e => absurd (h.symm.trans e) (by simp)
    | none => isTrue fun _ _ e => absurd (h.symm.trans e) (by simp)
  | .goOn c => inferInstanceAs (Decidable (∀ t, r.conds.phase c = some (.locking t rtEok) →
      ∀ p ∈ r.thread t, ¬ p.Defunct))
  | .detach c t => inferInstanceAs (Decidable (r.Alive c → r.Valid t → ∀ p ∈ r.thread t,
      ¬ p.Defunct ∧ ∀ c, ¬ r.conds.Taker t c))
  | .exit _ => isTrue trivial
  | .ret _ => isTrue trivial
  | .join _ _ => isTrue trivial
  | .wake _ => isTrue trivial

end Sound

/-! ### One thread -/

/-- What is to be known of one thread. -/
@[ext]
structure View (τ : Type*) where
  thread : Option Pthread
  ledger : Ledger
  queued : Prop
  collected : Bool
  detached : Bool
  value : ℕ
  taker : τ → Prop
  waits : τ → Prop

def Run.view (r : Run τ) (t : τ) : View τ where
  thread := r.thread t
  ledger := r.ledger t
  queued := t ∈ r.defunct
  collected := r.collected t
  detached := r.detached t
  value := r.conds.value t
  taker := r.conds.Taker t
  waits := r.conds.Waits t

/-- No thread: what a create that failed has allocated it has freed. -/
structure Unborn (v : View τ) : Prop where
  freed : ∀ k, v.ledger.freed k = v.ledger.allocated k
  one : ∀ k, v.ledger.allocated k ≤ 1
  fresh : v.ledger.allocated .data = 0 → ∀ k, v.ledger.allocated k = 0
  out : ¬ v.queued
  value : v.value = 0
  waits : ∀ c, ¬ v.waits c

/-- A thread has all its blocks, and its semaphore as long as it has a pointer to it. -/
structure Blocks (l : Ledger) (p : Pthread) : Prop where
  data : l.allocated .data = 1 ∧ l.freed .data = 0
  object : l.allocated .object = 1 ∧ l.freed .object = 0
  stack : l.allocated .stack = (if p.ownStack then 1 else 0) ∧ l.freed .stack = 0
  sem : l.allocated .sem = l.freed .sem + if p.sem then 1 else 0
  semOne : l.allocated .sem ≤ 1

/-- A thread that has not been released: it has all its blocks, and its semaphore as long as it is
    joinable. After its end it is on the list of defunct threads, or can be joined. -/
structure Owned (v : View τ) (p : Pthread) : Prop where
  blocks : Blocks v.ledger p
  joinable : p.joinable = p.sem
  off : p.joinable = false → v.detached = true ∨ v.collected = true ∧ p.life ≠ .running
  found : p.life ≠ .lost
  before : p.life ≠ .closed → p.cleanup = true ∧ ¬ v.queued
  after : p.life = .closed → (v.queued ↔ p.cleanup = true)
  running : p.life = .running → v.value = 0 ∧ ∀ c, ¬ v.taker c
  value : p.cleanup = true → v.value ≤ 1
  unique : ∀ c c', v.taker c → v.taker c' → c = c'
  counted : ∀ c, v.taker c → p.joinable = true
  kept : p.cleanup = false → p.joinable = true ∧ (0 < v.value ∨ ∃ c, v.taker c)

/-- A thread that has been released. -/
structure Released (v : View τ) (p : Pthread) : Prop where
  freed : ∀ k, v.ledger.freed k = v.ledger.allocated k
  one : ∀ k, v.ledger.allocated k ≤ 1
  data : v.ledger.allocated .data = 1
  closed : p.life = .closed
  why : v.detached = true ∨ v.collected = true
  out : ¬ v.queued
  takers : ∀ c, ¬ v.taker c

/-- What holds of each thread. -/
def Ok (v : View τ) : Prop :=
  match v.thread with
  | none => Unborn v
  | some p => Owned v p ∨ Released v p

/-- Who waits is where it is said to be, no thread is on the list of defunct threads twice, and each
    thread is what it should be. -/
structure Inv [DecidableEq τ] (r : Run τ) : Prop where
  conds : r.conds.Inv
  nodup : r.defunct.Nodup
  ok : ∀ t, Ok (r.view t)

section Good
variable {r : Run τ} {t : τ} {p : Pthread}

theorem Ok.unborn {v : View τ} (h : Ok v) (ht : v.thread = none) : Unborn v := by
  rwa [Ok, ht] at h

theorem Ok.born {v : View τ} (h : Ok v) (ht : v.thread = some p) : Owned v p ∨ Released v p := by
  rwa [Ok, ht] at h

theorem Blocks.balanced {l : Ledger} (b : Blocks l p) (k : Block) :
    l.freed k ≤ l.allocated k ∧ l.allocated k ≤ 1 := by
  cases k with
  | data => exact ⟨b.data.2.symm ▸ Nat.zero_le _, b.data.1.le⟩
  | object => exact ⟨b.object.2.symm ▸ Nat.zero_le _, b.object.1.le⟩
  | stack =>
    refine ⟨b.stack.2.symm ▸ Nat.zero_le _, ?_⟩
    rw [b.stack.1]
    split_ifs <;> decide
  | sem => exact ⟨b.sem ▸ Nat.le_add_right _ _, b.semOne⟩

/-- The ledger of a thread that has been released. -/
def Ledger.release (p : Pthread) (l : Ledger) : Ledger :=
  ((if p.ownStack then (if p.sem then l.free .sem else l).free .stack
    else if p.sem then l.free .sem else l).free .object).free .data

@[simp] theorem Ledger.release_allocated (p : Pthread) (l : Ledger) :
    (l.release p).allocated = l.allocated := by
  unfold Ledger.release
  split_ifs <;> rfl

/-- Everything is freed once. -/
theorem Blocks.release {l : Ledger} (b : Blocks l p) (k : Block) :
    (l.release p).freed k = l.allocated k := by
  have hsem := b.sem
  have hstack := b.stack
  cases k <;> cases hs : p.sem <;> cases ho : p.ownStack <;>
    simp_all [Ledger.release, Ledger.free, b.data, b.object]

/-- Who waits matters for a thread that does not exist only. -/
theorem Ok.of_waits {v : View τ} (h : Ok v) {waits : τ → Prop}
    (hw : v.thread = none → ∀ c, ¬ waits c) : Ok { v with waits := waits } := by
  cases ht : v.thread with
  | none =>
    have n := h.unborn ht
    exact Unborn.mk n.freed n.one n.fresh n.out n.value (hw ht)
  | some p =>
    rcases h.born ht with o | d
    · exact Or.inl ⟨o.blocks, o.joinable, o.off, o.found, o.before, o.after, o.running, o.value,
        o.unique, o.counted, o.kept⟩
    · exact Or.inr ⟨d.freed, d.one, d.data, d.closed, d.why, d.out, d.takers⟩

/-- What is known of each thread is what should hold. -/
theorem good_of_ok (h : ∀ t, Ok (r.view t)) : Good r := by
  refine ⟨fun t k => ?_, fun t k ht => ((h t).unborn ht).freed k, fun t p k ht hk hne => ?_,
    fun t p ht hne => ?_, fun t p k ht hlt => ?_⟩
  · cases ht : r.thread t with
    | none =>
      have u := (h t).unborn ht
      exact ⟨(u.freed k).le, u.one k⟩
    | some p =>
      obtain o | d := (h t).born ht
      · exact o.blocks.balanced k
      · exact ⟨(d.freed k).le, d.one k⟩
  · obtain o | d := (h t).born ht
    · cases k with
      | data => exact absurd o.blocks.data.2 hne
      | object => exact absurd o.blocks.object.2 hne
      | stack => exact absurd o.blocks.stack.2 hne
      | sem => exact absurd rfl hk
    · exact ⟨d.closed, d.why⟩
  · obtain o | d := (h t).born ht
    · refine o.off ?_
      have hsem := o.blocks.sem
      have hone := o.blocks.semOne
      have hpos : 0 < (r.view t).ledger.freed .sem := Nat.pos_of_ne_zero hne
      rw [o.joinable]
      by_contra hs
      rw [if_pos (by simpa using hs)] at hsem
      omega
    · obtain hw | hw := d.why
      · exact Or.inl hw
      · exact Or.inr ⟨hw, by rw [d.closed]; decide⟩
  · obtain o | d := (h t).born ht
    · cases hlife : p.life with
      | running => exact Or.inl rfl
      | exiting => exact Or.inr (Or.inl rfl)
      | lost => exact absurd hlife o.found
      | closed =>
        refine Or.inr (Or.inr ?_)
        cases hc : p.cleanup with
        | true => exact Or.inl ⟨(o.after hlife).2 hc, rfl⟩
        | false => exact Or.inr (o.kept hc)
    · exact absurd (d.freed k) hlt.ne

end Good

end EasyCore.Pthreads.Lifecycle
