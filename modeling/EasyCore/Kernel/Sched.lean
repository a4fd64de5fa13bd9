import EasyCore.Kernel.RtList
import EasyCore.Kernel.Ffs

/-! Threads and the scheduler (`src/scheduler.c`, `src/thread.c`).

    Every thread has one list node `tlist`, which is on the ready list of its priority, on the
    suspend list of an IPC object, on the list of defunct threads, or alone. A bitmap says which
    ready lists hold a thread: one word up to 32 priorities, a byte for every eight of them and a
    word over the bytes above. `pmax` is `RT_THREAD_PRIORITY_MAX`. A function that would read
    outside the ready lists, go through a null pointer or fail an assertion has no result. -/

namespace EasyCore.Kernel
open Function EasyCore.Links

/-- `stat`. -/
inductive Stat
  | init
  | ready
  | suspend
  | close
  deriving DecidableEq

def rtEok : ℤ := 0
def rtError : ℤ := 1
def rtEtimeout : ℤ := 2

/-- `struct rt_thread`. `timer` says that `thread_timer` is running, `cleanup` that there is a
    cleanup function, `systemobject` that the object is static. -/
structure Thread where
  stat : Stat
  initPriority : ℕ
  currentPriority : ℕ
  number : ℕ
  highMask : BitVec 8
  numberMask : BitVec 32
  error : ℤ
  timer : Bool
  cleanup : Bool
  systemobject : Bool
  deriving DecidableEq

/-- The list headers: the ready list of a priority, `rt_thread_defunct`, and the list of the
    threads suspended on an IPC object. -/
inductive Head (κ : Type*)
  | ready (priority : ℕ)
  | defunct
  | suspended (ipc : κ)
  deriving DecidableEq

/-- The static variables of scheduler.c, the threads and the list nodes. -/
structure KState (κ τ : Type*) where
  links : RtList (Node (Head κ) τ)
  thread : τ → Thread
  readyPriorityGroup : BitVec 32
  readyTable : ℕ → BitVec 8
  lockNest : ℤ
  currentThread : Option τ
  currentPriority : ℕ

variable {κ τ : Type*}

namespace KState
variable (s : KState κ τ)

/-- The `tlist` of a ready list and of a thread. -/
abbrev list (_ : KState κ τ) (h : Head κ) : Node (Head κ) τ := .head h
abbrev tlist (_ : KState κ τ) (t : τ) : Node (Head κ) τ := .item t

def setLinks (l : RtList (Node (Head κ) τ)) : KState κ τ := { s with links := l }
def setBitmap (group : BitVec 32) (table : ℕ → BitVec 8) : KState κ τ :=
  { s with readyPriorityGroup := group, readyTable := table }
def setLockNest (n : ℤ) : KState κ τ := { s with lockNest := n }

section Thread
variable [DecidableEq τ]

/-- Store into the thread `t`. -/
def modThread (t : τ) (f : Thread → Thread) : KState κ τ :=
  { s with thread := update s.thread t (f (s.thread t)) }

end Thread
end KState

/-- The masks of a priority, as `rt_thread_startup` and `rt_thread_control` compute them. -/
def Thread.calcMask (pmax : ℕ) (th : Thread) : Thread :=
  if pmax > 32 then
    { th with number := th.currentPriority >>> 3
              numberMask := 1#32 <<< (th.currentPriority >>> 3)
              highMask := 1#8 <<< (th.currentPriority &&& 7) }
  else { th with numberMask := 1#32 <<< th.currentPriority }

/-! ### scheduler.c -/

section Scheduler
variable (pmax : ℕ) [DecidableEq κ] [DecidableEq τ]

/-- `rt_system_scheduler_init`. -/
def rtSystemSchedulerInit (s : KState κ τ) : KState κ τ :=
  let links := (List.range pmax).foldl (fun m p => rtListInit m (.head (.ready p))) s.links
  { s with
    links := rtListInit links (.head .defunct)
    lockNest := 0
    currentPriority := pmax - 1
    currentThread := none
    readyPriorityGroup := 0
    readyTable := if pmax > 32 then fun i => if i < 32 then 0 else s.readyTable i else s.readyTable }

/-- `__rt_ffs(..) - 1` as an index: there is none where the word is zero. -/
def ffsIndex (n : ℕ) : Option ℕ := if n = 0 then none else some (n - 1)

/-- `highest_ready_priority`. -/
def highestReadyPriority (s : KState κ τ) : Option ℕ :=
  if pmax ≤ 32 then ffsIndex (rtFfs s.readyPriorityGroup)
  else (ffsIndex (rtFfs s.readyPriorityGroup)).bind fun number =>
    ffsIndex ((number <<< 3) + rtFfs ((s.readyTable number).setWidth 32))

/-- The thread whose `tlist` a node is (`rt_list_entry`); a header lies in no thread. -/
def rtListEntry : Node (Head κ) τ → Option τ
  | .item t => some t
  | .head _ => none

/-- `rt_system_scheduler_start`. -/
def rtSystemSchedulerStart (s : KState κ τ) : Option (KState κ τ) :=
  (highestReadyPriority pmax s).bind fun p =>
    (rtListEntry (s.links.next (.head (.ready p)))).map fun toThread =>
      { s with currentThread := some toThread }

/-- `rt_schedule`. -/
def rtSchedule (s : KState κ τ) : Option (KState κ τ) :=
  if s.lockNest = 0 then
    (highestReadyPriority pmax s).bind fun p =>
      (rtListEntry (s.links.next (.head (.ready p)))).map fun toThread =>
        if some toThread ≠ s.currentThread then
          { s with currentPriority := p % 256, currentThread := some toThread }
        else s
  else some s

/-- The bits set for a thread put on its ready list. -/
def setReadyBit (th : Thread) (s : KState κ τ) : KState κ τ :=
  if pmax > 32 then
    s.setBitmap (s.readyPriorityGroup ||| th.numberMask)
      (update s.readyTable th.number (s.readyTable th.number ||| th.highMask))
  else s.setBitmap (s.readyPriorityGroup ||| th.numberMask) s.readyTable

/-- The bits cleared for a thread whose ready list has become empty. -/
def clearReadyBit (th : Thread) (s : KState κ τ) : KState κ τ :=
  if pmax > 32 then
    let byte := s.readyTable th.number &&& ~~~th.highMask
    s.setBitmap (if byte = 0 then s.readyPriorityGroup &&& ~~~th.numberMask
      else s.readyPriorityGroup) (update s.readyTable th.number byte)
  else s.setBitmap (s.readyPriorityGroup &&& ~~~th.numberMask) s.readyTable

/-- `rt_schedule_insert_thread`. -/
def rtScheduleInsertThread (t : τ) (s : KState κ τ) : KState κ τ :=
  let s := s.modThread t fun th => { th with stat := .ready }
  let s := s.setLinks (rtListInsertBefore s.links
    (s.list (.ready (s.thread t).currentPriority)) (s.tlist t))
  setReadyBit pmax (s.thread t) s

/-- `rt_schedule_remove_thread`. -/
def rtScheduleRemoveThread (t : τ) (s : KState κ τ) : KState κ τ :=
  let s := s.setLinks (rtListRemove s.links (s.tlist t))
  if rtListIsempty s.links (s.list (.ready (s.thread t).currentPriority)) then
    clearReadyBit pmax (s.thread t) s
  else s

/-- A value of the 16-bit `rt_scheduler_lock_nest`. -/
def rtInt16 (n : ℤ) : ℤ := n.bmod 65536

/-- `rt_enter_critical`. -/
def rtEnterCritical (s : KState κ τ) : KState κ τ := s.setLockNest (rtInt16 (s.lockNest + 1))

/-- `rt_exit_critical`. -/
def rtExitCritical (s : KState κ τ) : Option (KState κ τ) :=
  let s := s.setLockNest (rtInt16 (s.lockNest - 1))
  if s.lockNest ≤ 0 then rtSchedule pmax (s.setLockNest 0) else some s

/-! ### thread.c -/

/-- `_rt_thread_init`, after `rt_object_init` (`systemobject`) or `rt_object_allocate`. -/
def rtThreadInit (t : τ) (systemobject : Bool) (priority : ℕ) (s : KState κ τ) :
    Option (KState κ τ) :=
  let s := s.setLinks (rtListInit s.links (s.tlist t))
  if priority < pmax then
    some (s.modThread t fun th =>
      { th with initPriority := priority
                currentPriority := priority
                error := rtEok
                stat := .init
                cleanup := false
                timer := false
                systemobject := systemobject })
  else none

/-- `rt_thread_suspend`. -/
def rtThreadSuspend (t : τ) (s : KState κ τ) : ℤ × KState κ τ :=
  if (s.thread t).stat ≠ .ready then (-rtError, s)
  else
    let s := s.modThread t fun th => { th with stat := .suspend }
    (rtEok, rtScheduleRemoveThread pmax t s)

/-- `rt_thread_resume`. -/
def rtThreadResume (t : τ) (s : KState κ τ) : ℤ × KState κ τ :=
  if (s.thread t).stat ≠ .suspend then (-rtError, s)
  else
    let s := s.setLinks (rtListRemove s.links (s.tlist t))
    let s := s.modThread t fun th => { th with timer := false }
    (rtEok, rtScheduleInsertThread pmax t s)

/-- `rt_thread_startup`. -/
def rtThreadStartup (t : τ) (s : KState κ τ) : Option (ℤ × KState κ τ) :=
  if (s.thread t).stat = .init then
    let s := s.modThread t fun th =>
      { Thread.calcMask pmax { th with currentPriority := th.initPriority } with stat := .suspend }
    let s := (rtThreadResume pmax t s).2
    if s.currentThread ≠ none then (rtSchedule pmax s).map fun s => (rtEok, s)
    else some (rtEok, s)
  else none

/-- Insert a closed thread into `rt_thread_defunct`. -/
def insertDefunct (t : τ) (s : KState κ τ) : KState κ τ :=
  s.setLinks (rtListInsertAfter s.links (s.list .defunct) (s.tlist t))

/-- Take a thread off every list and close it; its timer is detached. -/
def closeThread (t : τ) (s : KState κ τ) : KState κ τ :=
  (rtScheduleRemoveThread pmax t s).modThread t fun th => { th with timer := false, stat := .close }

/-- `rt_thread_detach`. -/
def rtThreadDetach (t : τ) (s : KState κ τ) : ℤ × KState κ τ :=
  let s := closeThread pmax t s
  (rtEok, if (s.thread t).cleanup then insertDefunct t s else s)

/-- `rt_thread_delete`. -/
def rtThreadDelete (t : τ) (s : KState κ τ) : ℤ × KState κ τ :=
  (rtEok, insertDefunct t (closeThread pmax t s))

/-- `rt_thread_exit`. -/
def rtThreadExit (s : KState κ τ) : Option (KState κ τ) :=
  s.currentThread.bind fun thread =>
    let s := closeThread pmax thread s
    rtSchedule pmax (if (s.thread thread).systemobject ∧ ¬(s.thread thread).cleanup then s
      else insertDefunct thread s)

/-- `rt_thread_yield`. -/
def rtThreadYield (s : KState κ τ) : Option (KState κ τ) :=
  s.currentThread.bind fun thread =>
    if (s.thread thread).stat = .ready ∧
        s.links.next (s.tlist thread) ≠ s.links.prev (s.tlist thread) then
      let s := s.setLinks (rtListRemove s.links (s.tlist thread))
      let s := s.setLinks (rtListInsertBefore s.links
        (s.list (.ready (s.thread thread).currentPriority)) (s.tlist thread))
      rtSchedule pmax s
    else some s

/-- The commands of `rt_thread_control`; `info` stands for the ones it does nothing for. -/
inductive ThreadCtrl
  | startup
  | close
  | changePriority (arg : ℕ)
  | info
  deriving DecidableEq

/-- `RT_THREAD_CTRL_CHANGE_PRIORITY`: the priority and its masks. -/
def changePriority (t : τ) (arg : ℕ) (s : KState κ τ) : KState κ τ :=
  let change (s : KState κ τ) := s.modThread t fun th =>
    Thread.calcMask pmax { th with currentPriority := arg }
  if (s.thread t).stat = .ready then
    rtScheduleInsertThread pmax t (change (rtScheduleRemoveThread pmax t s))
  else change s

/-- `rt_thread_control`. -/
def rtThreadControl (t : τ) (cmd : ThreadCtrl) (s : KState κ τ) : Option (ℤ × KState κ τ) :=
  match cmd with
  | .changePriority arg => some (rtEok, changePriority pmax t arg s)
  | .startup => rtThreadStartup pmax t s
  | .close => some (rtThreadDelete pmax t s)
  | .info => some (rtEok, s)

/-- `rt_thread_timeout`, called when `thread_timer` has run out. -/
def rtThreadTimeout (t : τ) (s : KState κ τ) : Option (KState κ τ) :=
  if (s.thread t).stat = .suspend then
    let s := s.modThread t fun th => { th with error := -rtEtimeout }
    let s := s.setLinks (rtListRemove s.links (s.tlist t))
    rtSchedule pmax (rtScheduleInsertThread pmax t s)
  else none

/-! ### The suspend lists of ipc.c -/

/-- The flag of an IPC object. -/
inductive IpcFlag
  | fifo
  | prio
  deriving DecidableEq

/-- The search of `rt_ipc_list_suspend` for a waiter less urgent than `priority`, from the node
    `n` on: the node to insert before. -/
def findWaiter (s : KState κ τ) (k : κ) (priority : ℕ) :
    ℕ → Node (Head κ) τ → Option (Node (Head κ) τ)
  | 0, _ => none
  | fuel + 1, n =>
    if n = s.list (.suspended k) then some n
    else (rtListEntry n).bind fun sthread =>
      if priority < (s.thread sthread).currentPriority then some n
      else findWaiter s k priority fuel (s.links.next n)

/-- `rt_ipc_list_suspend`. -/
def rtIpcListSuspend (fuel : ℕ) (k : κ) (t : τ) (flag : IpcFlag) (s : KState κ τ) :
    Option (KState κ τ) :=
  let s := (rtThreadSuspend pmax t s).2
  match flag with
  | .fifo => some (s.setLinks (rtListInsertBefore s.links (s.list (.suspended k)) (s.tlist t)))
  | .prio =>
    (findWaiter s k (s.thread t).currentPriority fuel (s.links.next (s.list (.suspended k)))).map
      fun n => s.setLinks (rtListInsertBefore s.links n (s.tlist t))

/-- `rt_ipc_list_resume`. -/
def rtIpcListResume (k : κ) (s : KState κ τ) : Option (KState κ τ) :=
  (rtListEntry (s.links.next (s.list (.suspended k)))).map fun t => (rtThreadResume pmax t s).2

/-- `rt_ipc_list_resume_all`. -/
def rtIpcListResumeAll (k : κ) : ℕ → KState κ τ → Option (KState κ τ)
  | 0, _ => none
  | fuel + 1, s =>
    if rtListIsempty s.links (s.list (.suspended k)) then some s
    else (rtListEntry (s.links.next (s.list (.suspended k)))).bind fun t =>
      let s := s.modThread t fun th => { th with error := -rtError }
      rtIpcListResumeAll k fuel (rtThreadResume pmax t s).2

/-- One pass of the loop of `rt_thread_idle_excute`: the first defunct thread is taken off the
    list for good. -/
def idleReap (s : KState κ τ) : Option (KState κ τ) :=
  if rtListIsempty s.links (s.list .defunct) then some s
  else (rtListEntry (s.links.next (s.list .defunct))).map fun t =>
    s.setLinks (rtListRemove s.links (s.tlist t))

end Scheduler

end EasyCore.Kernel
