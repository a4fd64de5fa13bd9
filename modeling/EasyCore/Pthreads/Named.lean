import EasyCore.Pthreads.Cond
import EasyCore.Pthreads.Registry

/-! Named semaphores and message queues (`components/pthreads/semaphore.c`, `mqueue.c`), and
    `sem_trywait`. The find function of the message queues reads the name of the kernel object. That of the
    semaphores reads the pointer to it, and what follows in the descriptor, as if they were the name. -/

namespace EasyCore.Pthreads.Named
open Function Kernel Runs Ipc Links Registry

/-- The bytes of a pointer. -/
def bytes (a : Addr) : List UInt8 :=
  [a.toUInt8, (a >>> 8).toUInt8, (a >>> 16).toUInt8, (a >>> 24).toUInt8]

/-- `(rt_object_t)&(iter->sem)`: the fields `sem` and `next` stand where the name is looked for. -/
def semLabel (r : Reg) (a : Addr) : List UInt8 :=
  bytes (r.desc a).object ++ bytes ((r.next a).getD 0)

/-- `(rt_object_t)(iter->mq)` -/
def mqLabel (r : Reg) (a : Addr) : List UInt8 := r.objectName (r.desc a).object

def posixSemFind : CString → Reg → Option Addr := posixFind semLabel

def semOpen : CString → Bool → Bool → Alloc → Alloc → Reg → Res := posixOpen semLabel

def semUnlink : CString → Reg → Res := posixUnlink semLabel

def posixMqFind : CString → Reg → Option Addr := posixFind mqLabel

def mqOpen : CString → Bool → Bool → Alloc → Alloc → Reg → Res := posixOpen mqLabel

def mqUnlink : CString → Reg → Res := posixUnlink mqLabel

/-- The semaphores and the message queues, and the semaphores of the kernel. -/
structure Run (τ : Type*) where
  sems : Registry.Run
  mqs : Registry.Run
  os : Sem.State Addr τ

variable {τ : Type*}

/-- A call on a semaphore (with the first value, if it creates one) or a message queue; `sem_post`; and
    `sem_trywait`. -/
inductive Op (τ : Type*)
  | sem (op : Registry.Op) (value : ℕ)
  | mq (op : Registry.Op)
  | post (a : Addr)
  | trywait (t : τ) (a : Addr)

section Exec
variable [DecidableEq τ]

/-- `rt_sem_create` and `rt_sem_delete` in a call. -/
def kernelCalls (res : Res) (value : ℕ) (os : Sem.State Addr τ) : Sem.State Addr τ where
  sem := res.created.elim os.sem fun o => update os.sem o (Sem.rtSemInit value .fifo)
  tasks := res.deleted.elim os.tasks os.tasks.ipcResumeAll

/-- `sem_post` -/
def semPost (a : Addr) (r : Run τ) : Run τ :=
  { r with os := ((Sem.rtSemRelease (r.sems.reg.desc a).object r.os).map Prod.snd).getD r.os }

/-- `sem_trywait`: the result, if the call returns at once. -/
def semTrywait (t : τ) (a : Addr) (r : Run τ) : Option ℤ × Run τ :=
  match Sem.rtSemTake (some t) (r.sems.reg.desc a).object rtWaitingForever r.os with
  | some (e, os) => (e.map fun e => if e = rtEok then 0 else -1, { r with os := os })
  | none => (none, r)

/-- A thread that is ready, and a semaphore that is open. -/
def Run.Ready (r : Run τ) (t : τ) (a : Addr) : Prop :=
  r.os.tasks.stat t = .ready ∧ r.sems.opens a ≠ 0

instance (r : Run τ) (t : τ) (a : Addr) : Decidable (r.Ready t a) :=
  inferInstanceAs (Decidable (_ ∧ _))

def Run.step (r : Run τ) : Op τ → Run τ
  | .sem op value =>
    { r with
      sems := r.sems.step semLabel op
      os := kernelCalls (r.sems.exec semLabel op).1 value r.os }
  | .mq op => { r with mqs := r.mqs.step mqLabel op }
  | .post a => if r.sems.opens a ≠ 0 then semPost a r else r
  | .trywait t a => if r.Ready t a then (semTrywait t a r).2 else r

/-- The objects of a name are as they should be, and `sem_trywait` returns at once. -/
def Behaves (r : Run τ) : Op τ → Prop
  | .sem op _ => Registry.Behaves semLabel r.sems op
  | .mq op => Registry.Behaves mqLabel r.mqs op
  | .post _ => True
  | .trywait t a => r.Ready t a → (semTrywait t a r).1 ≠ none

/-- The condition for each list, and a count for `sem_trywait`. -/
def Sound (r : Run τ) : Op τ → Prop
  | .sem op _ => Registry.Sound semLabel r.sems op
  | .mq op => Registry.Sound mqLabel r.mqs op
  | .post _ => True
  | .trywait t a => r.Ready t a → 0 < (r.os.sem (r.sems.reg.desc a).object).value

instance (r : Run τ) : ∀ op, Decidable (Sound r op)
  | .sem op _ => inferInstanceAs (Decidable (Registry.Sound semLabel r.sems op))
  | .mq op => inferInstanceAs (Decidable (Registry.Sound mqLabel r.mqs op))
  | .post _ => inferInstanceAs (Decidable True)
  | .trywait _ _ => inferInstanceAs (Decidable (_ → _))

end Exec

/-! ### Each call -/

/-- Both lists are in order. -/
structure Inv (r : Run τ) : Prop where
  sems : Good r.sems
  mqs : Good r.mqs

/-- No object. -/
structure Run.Init (r : Run τ) : Prop where
  sems : r.sems.Init
  mqs : r.mqs.Init

section Steps
variable [DecidableEq τ] {r : Run τ} {op : Op τ} {t : τ} {a : Addr}

/-- `RT_WAITING_FOREVER` makes `sem_trywait` wait. -/
theorem semTrywait_iff :
    (semTrywait t a r).1 ≠ none ↔ 0 < (r.os.sem (r.sems.reg.desc a).object).value := by
  unfold semTrywait Sem.rtSemTake
  by_cases hv : (r.os.sem (r.sems.reg.desc a).object).value > 0
  · rw [if_pos hv]
    exact iff_of_true (Option.some_ne_none _) hv
  · rw [if_neg hv, if_neg (by decide)]
    exact iff_of_false (not_not.2 rfl) hv

theorem semTrywait_lists : (semTrywait t a r).2.sems = r.sems ∧ (semTrywait t a r).2.mqs = r.mqs := by
  unfold semTrywait
  split <;> exact ⟨rfl, rfl⟩

theorem behaves_iff (i : Inv r) : Behaves r op ↔ Sound r op := by
  cases op with
  | sem op value => exact Registry.behaves_iff i.sems
  | mq op => exact Registry.behaves_iff i.mqs
  | post a => exact Iff.rfl
  | trywait t a => exact forall_congr' fun _ => semTrywait_iff

theorem Inv.step (i : Inv r) (h : Behaves r op) : Inv (r.step op) := by
  cases op with
  | sem op value => exact ⟨Registry.Behaves.good h, i.mqs⟩
  | mq op => exact ⟨i.sems, Registry.Behaves.good h⟩
  | post a =>
    rw [Run.step]
    split_ifs
    · exact ⟨i.sems, i.mqs⟩
    · exact i
  | trywait t a =>
    rw [Run.step]
    split_ifs
    · obtain ⟨hsems, hmqs⟩ := semTrywait_lists (t := t) (a := a) (r := r)
      exact ⟨hsems.symm ▸ i.sems, hmqs.symm ▸ i.mqs⟩
    · exact i

omit [DecidableEq τ] in
theorem init_inv (h : r.Init) : Inv r := ⟨init_good h.sems, init_good h.mqs⟩

/-- CORRECT: named objects are as they should be exactly as long as the find functions find them, none is
    created for a name that has one, a count has room, and `sem_trywait` has one. -/
theorem named_of_sound (hr : r.Init) (ops : List (Op τ)) :
    Along Run.step Behaves r ops ↔ Along Run.step Sound r ops :=
  Along.iff (I := Inv) (fun _ _ i => behaves_iff i) (fun _ _ i h => i.step ((behaves_iff i).2 h)) ops
    (init_inv hr)

/-- Memory from a pool of addresses. -/
def heapOf (pool : List Addr) : Alloc := fun live =>
  match h : pool.find? fun a => decide (a ∉ live) with
  | some a => some ⟨a, by simpa using List.find?_some h⟩
  | none => none

theorem no_nul_nil : (0 : UInt8) ∉ [] := List.not_mem_nil

/-- No objects, and threads that are ready. -/
def start : Run ℕ where
  sems := ⟨⟨none, fun _ => none, fun _ => ⟨0, false, 0⟩, fun _ => [], []⟩, fun _ => ⟨[], no_nul_nil⟩,
    fun _ => 0, fun _ => false⟩
  mqs := ⟨⟨none, fun _ => none, fun _ => ⟨0, false, 0⟩, fun _ => [], []⟩, fun _ => ⟨[], no_nul_nil⟩,
    fun _ => 0, fun _ => false⟩
  os :=
    { tasks := ⟨fun t => ⟨.ready, t, t, 0, 0, 0, 0, false, false, true⟩, fun _ => []⟩
      sem := fun _ => Sem.rtSemInit 0 .fifo }

theorem start_init : start.Init := ⟨⟨rfl, rfl, fun _ => rfl⟩, ⟨rfl, rfl, fun _ => rfl⟩⟩

/-- The name `q`. -/
def q : CString := ⟨[0x71], by decide⟩

/-- `O_CREAT`, with memory at 32 and 64. -/
def creat : Registry.Op := .open q true false (heapOf [32, 64]) (heapOf [32, 64])

/-- A semaphore is taken once; a message queue is opened twice, unlinked, and freed at the second close. -/
theorem named_of_sound_twice : Along Run.step Behaves start
    [.sem creat 1, .trywait 0 32, .mq creat, .mq (.open q false false (heapOf []) (heapOf [])),
      .mq (.unlink q), .mq (.close 32), .mq (.close 32), .sem (.close 32) 0] :=
  (named_of_sound start_init _).2 (by decide +kernel)

/-- `sem_unlink` does not find a semaphore that has just been created. -/
theorem not_named_of_unlink : ¬ Along Run.step Behaves start [.sem creat 1, .sem (.unlink q) 0] := by
  rintro ⟨-, h, -⟩
  obtain ⟨l, hl⟩ := Registry.Behaves.good h
  have hmem : 32 ∈ l := by
    rw [← hl.rep.nodes_eq]
    decide +kernel
  exact absurd (hl.unlinked 32 hmem) (by decide +kernel)

end Steps

end EasyCore.Pthreads.Named
