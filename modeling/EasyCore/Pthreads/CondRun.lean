import EasyCore.Lib.Runs
import EasyCore.Pthreads.Cond

/-! Runs on a condition variable and its mutex. Signals are counted by the semaphore, and a count is not
    for a certain thread: it goes to the next one that takes the semaphore, whenever its wait began. -/

namespace EasyCore.Pthreads.CondRun
open Function Kernel Runs Ipc Links

/-- The condition variable, the owner of the mutex, and the threads for which a signal or a broadcast has
    come since their wait began. -/
structure Run (τ : Type*) where
  conds : Conds Unit τ
  owner : Option τ
  since : τ → Bool

variable {τ : Type*}

/-- What happens: the mutex is locked and unlocked; a wait begins, takes the semaphore, goes on after a
    wake-up, and locks the mutex again; calls of `pthread_cond_signal` and `pthread_cond_broadcast` by a
    thread or an interrupt handler; and the timer of a thread. -/
inductive Op (τ : Type*)
  | lock (t : τ)
  | unlock (t : τ)
  | wait (t : τ) (timeout : ℤ)
  | take (t : τ)
  | wake (t : τ)
  | relock (t : τ)
  | signal (c : Option τ)
  | broadcast (c : Option τ)
  | expire (t : τ)

section Exec
variable [DecidableEq τ]

/-- A caller that is inside no wait. -/
def Run.Free (r : Run τ) (c : Option τ) : Prop := r.conds.os.tasks.Free r.conds.phase c

instance (r : Run τ) (c : Option τ) : Decidable (r.Free c) :=
  inferInstanceAs (Decidable (Tasks.Free _ _ _))

/-- `_pthread_cond_timedwait` up to the unlock of the mutex. -/
def pthreadCondTimedwait (t : τ) (timeout : ℤ) (r : Run τ) : Option ℤ × Run τ :=
  if r.owner ≠ some t then (some (-rtError), r)
  else (none, { conds := r.conds.enter t () timeout, owner := none, since := update r.since t false })

/-- One step, and the wait that returns in it. -/
def Run.exec (r : Run τ) : Op τ → Option (Option (τ × ℤ) × Run τ)
  | .lock t =>
    if r.Free (some t) ∧ r.owner = none then some (none, { r with owner := some t }) else none
  | .unlock t =>
    if r.Free (some t) ∧ r.owner = some t then some (none, { r with owner := none }) else none
  | .wait t timeout =>
    if r.Free (some t) then
      let res := pthreadCondTimedwait t timeout r
      some (res.1.map fun e => (t, e), res.2)
    else none
  | .take t => (r.conds.take t).map fun conds => (none, { r with conds := conds })
  | .wake t => (r.conds.wake t).map fun conds => (none, { r with conds := conds })
  | .relock t =>
    match r.conds.phase t with
    | some (.locking _ e) =>
      if r.owner = none then
        some (some (t, e), { r with conds := r.conds.leave t, owner := some t })
      else none
    | _ => none
  | .signal c =>
    if r.Free c then some (none, { r with conds := r.conds.signal (), since := fun _ => true })
    else none
  | .broadcast c =>
    if r.Free c then some (none, { r with conds := r.conds.broadcast (), since := fun _ => true })
    else none
  | .expire t => (r.conds.expire t).map fun conds => (none, { r with conds := conds })

def Run.step (r : Run τ) (op : Op τ) : Run τ := ((r.exec op).map Prod.snd).getD r

/-- The wait that returns in a step, and its result. -/
def Run.answer (r : Run τ) (op : Op τ) : Option (τ × ℤ) := (r.exec op).bind Prod.fst

/-- How many waiting threads are not released: they are suspended, or will not find a count. -/
def Run.unreleased (r : Run τ) : ℕ :=
  (r.conds.suspended ()).length + ((r.conds.window ()).length - r.conds.value ())

/-- A wait is released by a signal or a broadcast that has come since it began, and by no earlier one; a
    signal releases a thread if there is one to release, a broadcast all of them, and what is released
    stays so; and a wait returns with the mutex. -/
structure Behaves (r : Run τ) (op : Op τ) : Prop where
  fresh : ∀ t, (r.step op).conds.phase t = some (.locking () rtEok) → (r.step op).since t = true
  signal : ∀ c, op = .signal c → r.Free c → r.unreleased ≠ 0 →
    (r.step op).unreleased < r.unreleased
  broadcast : ∀ c, op = .broadcast c → r.Free c → (r.step op).unreleased = 0
  kept : (∀ t timeout, op ≠ .wait t timeout) → (r.step op).unreleased ≤ r.unreleased
  locked : ∀ t e, r.answer op = some (t, e) → (r.step op).owner = some t

/-- A wait begins with the mutex locked and no count in the semaphore; a signal finds a thread suspended,
    or more threads in front of the semaphore than it has counts; a broadcast finds one thread there, or
    as many as there are counts. -/
def Sound (r : Run τ) : Op τ → Prop
  | .wait t _ => r.Free (some t) → r.owner = some t ∧ r.conds.value () = 0
  | .signal c => r.Free c → r.conds.suspended () ≠ [] ∨
    r.conds.value () < (r.conds.window ()).length ∧ r.conds.value () < 65535
  | .broadcast c => r.Free c → (r.conds.window ()).length = max (r.conds.value ()) 1
  | _ => True

instance (r : Run τ) (op : Op τ) : Decidable (Sound r op) := by
  cases op <;> unfold Sound <;> infer_instance

end Exec

/-- The counts are for threads in front of the semaphore, which have all been there when they came. -/
structure Inv [DecidableEq τ] (r : Run τ) : Prop where
  conds : r.conds.Inv
  le : r.conds.value () ≤ (r.conds.window ()).length
  counted : 0 < r.conds.value () → ∀ t ∈ r.conds.window (), r.since t = true
  woken : ∀ t, r.conds.phase t = some (.taking ()) → t ∉ r.conds.suspended () →
    r.conds.error t = rtEok → r.since t = true
  locking : ∀ t, r.conds.phase t = some (.locking () rtEok) → r.since t = true

section Steps
variable [DecidableEq τ] {r r' : Run τ} {t : τ} {c : Option τ} {op : Op τ} {timeout : ℤ}
  {conds : Conds Unit τ}

/-- Only `t` has gone on, and is not in `rt_sem_take`. -/
theorem Inv.woken_of_moved (i : Inv r) (hph : ∀ u ≠ t, conds.phase u = r.conds.phase u)
    (hsusp : conds.suspended () = r.conds.suspended ()) (herr : conds.error = r.conds.error)
    (ht : conds.phase t ≠ some (.taking ())) {u : τ} (hu : conds.phase u = some (.taking ()))
    (hout : u ∉ conds.suspended ()) (he : conds.error u = rtEok) : u ≠ t ∧ r.since u = true := by
  have hut : u ≠ t := by
    rintro rfl
    exact ht hu
  rw [hph u hut] at hu
  rw [hsusp] at hout
  rw [herr] at he
  exact ⟨hut, i.woken u hu hout he⟩

/-- Only `t` has gone on, and has got no count. -/
theorem Inv.locking_of_moved (i : Inv r) (hph : ∀ u ≠ t, conds.phase u = r.conds.phase u)
    (ht : conds.phase t ≠ some (.locking () rtEok)) {u : τ}
    (hu : conds.phase u = some (.locking () rtEok)) : u ≠ t ∧ r.since u = true := by
  have hut : u ≠ t := by
    rintro rfl
    exact ht hu
  rw [hph u hut] at hu
  exact ⟨hut, i.locking u hu⟩

/-- A wait begins. -/
theorem Inv.wait (i : Inv r) (ht : r.conds.phase t = none) (hv : r.conds.value () = 0)
    (timeout : ℤ) (owner : Option τ) :
    Inv { conds := r.conds.enter t () timeout, owner := owner, since := update r.since t false } := by
  have hph : ∀ u ≠ t, (r.conds.enter t () timeout).phase u = r.conds.phase u :=
    fun u hu => update_of_ne hu ..
  have hnew : (r.conds.enter t () timeout).phase t = some (.window () timeout) := update_self ..
  refine ⟨i.conds.enter ht () timeout, ?_, fun hpos => absurd hv hpos.ne', fun u hu hout he => ?_,
    fun u hu => ?_⟩
  · rw [show (r.conds.enter t () timeout).value () = 0 from hv]
    exact Nat.zero_le _
  · obtain ⟨hut, hs⟩ := i.woken_of_moved hph rfl rfl (by simp [hnew]) hu hout he
    exact (update_of_ne hut ..).trans hs
  · obtain ⟨hut, hs⟩ := i.locking_of_moved hph (by simp [hnew]) hu
    exact (update_of_ne hut ..).trans hs

/-- A thread takes the semaphore: a count is for it. -/
theorem Inv.take (i : Inv r) (h : r.conds.take t = some conds) :
    Inv { r with conds := conds } ∧ Run.unreleased { r with conds := conds } ≤ r.unreleased := by
  have hconds := i.conds.take h
  obtain ⟨k, timeout, ht, hmem, hwindow, htaken⟩ := i.conds.taken h
  obtain rfl : k = () := rfl
  have hpos : 0 < (r.conds.window ()).length := List.length_pos_of_mem hmem
  have hlen : (conds.window ()).length = (r.conds.window ()).length - 1 := by
    rw [hwindow, update_self, List.length_erase_of_mem hmem]
  have hle := i.le
  unfold Run.unreleased
  cases htaken with
  | counted hv value suspended error phase =>
    refine ⟨⟨hconds, ?_, fun _ u hu => ?_, fun u hu hout he => ?_, fun u hu => ?_⟩, ?_⟩
    · dsimp only
      rw [hlen, value, update_self]
      exact Nat.sub_le_sub_right hle 1
    · dsimp only at hu
      rw [hwindow, update_self] at hu
      exact i.counted hv u (List.mem_of_mem_erase hu)
    · exact (i.woken_of_moved (fun u hut => phase ▸ update_of_ne hut ..) (congrFun suspended ()) error
        (by simp [phase]) hu hout he).2
    · dsimp only at hu
      rw [phase] at hu
      obtain rfl | hut := eq_or_ne u t
      · exact i.counted hv u hmem
      · rw [update_of_ne hut] at hu
        exact i.locking u hu
    · dsimp only
      rw [hlen, value, suspended, update_self]
      omega
  | refused hv htime value suspended error phase =>
    refine ⟨⟨hconds, ?_, fun hv' => ?_, fun u hu hout he => ?_, fun u hu => ?_⟩, ?_⟩
    · dsimp only
      rw [value, hv]
      exact Nat.zero_le _
    · dsimp only at hv'
      rw [value] at hv'
      exact absurd hv hv'.ne'
    · exact (i.woken_of_moved (fun u hut => phase ▸ update_of_ne hut ..) (congrFun suspended ()) error
        (by simp [phase]) hu hout he).2
    · refine (i.locking_of_moved (fun u hut => phase ▸ update_of_ne hut ..) ?_ hu).2
      rw [phase, update_self, Ne, Option.some.injEq, Phase.locking.injEq]
      exact fun h => absurd h.2 (by decide)
    · dsimp only
      rw [hlen, value, suspended]
      omega
  | @slept l hv value perm suspended error phase =>
    refine ⟨⟨hconds, ?_, fun hv' => ?_, fun u hu hout he => ?_, fun u hu => ?_⟩, ?_⟩
    · dsimp only
      rw [value, hv]
      exact Nat.zero_le _
    · dsimp only at hv'
      rw [value] at hv'
      exact absurd hv hv'.ne'
    · dsimp only at hu hout he
      rw [suspended, update_self, perm.mem_iff, List.mem_cons, not_or] at hout
      rw [phase, update_of_ne hout.1] at hu
      rw [error, update_of_ne hout.1] at he
      exact i.woken u hu hout.2 he
    · exact (i.locking_of_moved (fun u hut => phase ▸ update_of_ne hut ..) (by simp [phase]) hu).2
    · dsimp only
      rw [hlen, value, suspended, update_self, perm.length_eq, List.length_cons]
      omega

/-- A woken thread goes on: it has been woken since its wait began, or its time is over. -/
theorem Inv.wake (i : Inv r) (h : r.conds.wake t = some conds) :
    Inv { r with conds := conds } ∧ Run.unreleased { r with conds := conds } ≤ r.unreleased := by
  have hconds := i.conds.wake h
  obtain ⟨⟨⟩, ht, hr, rfl⟩ := Conds.wake_cases h
  refine ⟨⟨hconds, i.le, i.counted, fun u hu hout he => ?_, fun u hu => ?_⟩, le_rfl⟩
  · obtain rfl | hut := eq_or_ne u t
    · simp at hu
    · simp only [update_of_ne hut] at hu
      exact i.woken u hu hout he
  · obtain rfl | hut := eq_or_ne u t
    · simp only [update_self, Option.some.injEq, Phase.locking.injEq, true_and] at hu
      exact i.woken u ht (i.conds.waiting.not_mem hr ()) hu
    · simp only [update_of_ne hut] at hu
      exact i.locking u hu

theorem Inv.leave (i : Inv r) {k : Unit} {e : ℤ} (ht : r.conds.phase t = some (.locking k e))
    (owner : Option τ) : Inv { r with conds := r.conds.leave t, owner := owner } := by
  have hph : ∀ u ≠ t, (r.conds.leave t).phase u = r.conds.phase u := fun u hu => update_of_ne hu ..
  have hnew : (r.conds.leave t).phase t = none := update_self ..
  exact ⟨i.conds.leave ht, i.le, i.counted,
    fun u hu hout he => (i.woken_of_moved hph rfl rfl (by simp [hnew]) hu hout he).2,
    fun u hu => (i.locking_of_moved hph (by simp [hnew]) hu).2⟩

/-- A signal releases a thread, one that is suspended or one in front of the semaphore. -/
theorem Inv.signal (i : Inv r) (hs : r.conds.suspended () ≠ [] ∨
    r.conds.value () < (r.conds.window ()).length ∧ r.conds.value () < 65535) :
    Inv { r with conds := r.conds.signal (), since := fun _ => true } ∧
      Run.unreleased { r with conds := r.conds.signal (), since := fun _ => true } < r.unreleased := by
  have hconds := i.conds.signal ()
  have hle := i.le
  have hidle := i.conds.idle ()
  obtain ⟨t, l, hl, hsusp, hvalue, -⟩ | ⟨hl, hsusp, hvalue, -⟩ := i.conds.signal_fields ()
  · refine ⟨⟨hconds, ?_, fun _ _ _ => rfl, fun _ _ _ _ => rfl, fun _ _ => rfl⟩, ?_⟩
    · dsimp only
      rw [hvalue]
      exact hle
    · simp only [Run.unreleased]
      rw [hvalue, hsusp, update_self, hl, List.length_cons]
      exact Nat.add_lt_add_right (Nat.lt_succ_self _) _
  · obtain ⟨hlt, hmax⟩ := hs.resolve_left (not_not.2 hl)
    have hmod : (r.conds.value () + 1) % 65536 = r.conds.value () + 1 := Nat.mod_eq_of_lt (by omega)
    refine ⟨⟨hconds, ?_, fun _ _ _ => rfl, fun _ _ _ _ => rfl, fun _ _ => rfl⟩, ?_⟩
    · dsimp only
      rw [hvalue, update_self, hmod]
      exact hlt
    · simp only [Run.unreleased]
      rw [hvalue, hsusp, update_self, hmod]
      exact Nat.add_lt_add_left (Nat.sub_lt_sub_left hlt (Nat.lt_succ_self _)) _

/-- A broadcast leaves nobody who is not released. -/
theorem Inv.broadcast (i : Inv r)
    (hs : (r.conds.window ()).length = max (r.conds.value ()) 1) :
    Inv { r with conds := r.conds.broadcast (), since := fun _ => true } ∧
      Run.unreleased { r with conds := r.conds.broadcast (), since := fun _ => true } = 0 := by
  obtain ⟨hconds, hsusp, hvalue, -⟩ := i.conds.broadcast ()
  refine ⟨⟨hconds, ?_, fun _ _ _ => rfl, fun _ _ _ _ => rfl, fun _ _ => rfl⟩, ?_⟩
  · dsimp only
    rw [hvalue, update_self]
    exact hs.ge
  · simp only [Run.unreleased]
    rw [hvalue, hsusp, update_self, update_self]
    exact (Nat.zero_add _).trans (Nat.sub_eq_zero_of_le hs.le)

/-- A timer fires. -/
theorem Inv.expire (i : Inv r) (h : r.conds.expire t = some conds) :
    Inv { r with conds := conds } ∧ Run.unreleased { r with conds := conds } ≤ r.unreleased := by
  obtain ⟨hconds, hsusp, hvalue, hwindow, hphase, herror⟩ := i.conds.expire h
  refine ⟨⟨hconds, ?_, ?_, fun u hu hout he => ?_, fun u hu => ?_⟩, ?_⟩
  · dsimp only
    rw [hvalue, hwindow]
    exact i.le
  · dsimp only
    rw [hvalue, hwindow]
    exact i.counted
  · dsimp only at hu hout he
    rw [hphase] at hu
    rw [herror] at he
    obtain rfl | hut := eq_or_ne u t
    · rw [update_self] at he
      exact absurd he (by decide)
    · rw [update_of_ne hut] at he
      rw [hsusp, mem_without_of_ne hut] at hout
      exact i.woken u hu hout he
  · dsimp only at hu
    rw [hphase] at hu
    exact i.locking u hu
  · simp only [Run.unreleased]
    rw [hvalue, hwindow, hsusp]
    exact Nat.add_le_add_right List.length_erase_le _

/-- A step that is neither a signal nor a broadcast. -/
theorem behaves_of_quiet (i : Inv (r.step op)) (hs : ∀ c, op ≠ .signal c) (hb : ∀ c, op ≠ .broadcast c)
    (hk : (∀ t timeout, op ≠ .wait t timeout) → (r.step op).unreleased ≤ r.unreleased)
    (hl : ∀ t e, r.answer op = some (t, e) → (r.step op).owner = some t) : Behaves r op :=
  ⟨i.locking, fun c h => absurd h (hs c), fun c h => absurd h (hb c), hk, hl⟩

/-- A step that is not made. -/
theorem idle_step (i : Inv r) (h : r.exec op = none) (hs : ∀ c, op = .signal c → ¬ r.Free c)
    (hb : ∀ c, op = .broadcast c → ¬ r.Free c) : Inv (r.step op) ∧ Behaves r op := by
  have hstep : r.step op = r := by
    rw [Run.step, h]
    rfl
  have hanswer : r.answer op = none := by
    rw [Run.answer, h]
    rfl
  refine ⟨?_, ?_, fun c hc hf => absurd hf (hs c hc), fun c hc hf => absurd hf (hb c hc),
    fun _ => ?_, fun t e he => ?_⟩
  · rw [hstep]
    exact i
  · rw [hstep]
    exact i.locking
  · rw [hstep]
  · exact absurd (hanswer.symm.trans he) (Option.some_ne_none _).symm

/-- A step that is made. -/
theorem made_step (r : Run τ) (op : Op τ) {res : Option (τ × ℤ)} (h : r.exec op = some (res, r')) :
    r.step op = r' ∧ r.answer op = res := by
  rw [Run.step, Run.answer, h]
  exact ⟨rfl, rfl⟩

/-- A step that is made, and releases nobody and returns from no wait. -/
theorem quiet_step (h : r.exec op = some (none, r')) (i : Inv r') (hle : r'.unreleased ≤ r.unreleased)
    (hs : ∀ c, op ≠ .signal c) (hb : ∀ c, op ≠ .broadcast c) : Inv (r.step op) ∧ Behaves r op := by
  obtain ⟨hstep, hanswer⟩ := made_step r op h
  have i' : Inv (r.step op) := hstep ▸ i
  refine ⟨i', behaves_of_quiet i' hs hb (fun _ => hstep ▸ hle) fun u e he => ?_⟩
  exact absurd (hanswer.symm.trans he) (Option.some_ne_none _).symm

/-- A sound step keeps the invariant and behaves. -/
theorem Inv.step (i : Inv r) (h : Sound r op) : Inv (r.step op) ∧ Behaves r op := by
  have hnone : ∀ {t : τ} {e : ℤ} {P : Prop}, none = some (t, e) → P := fun h =>
    absurd h (Option.some_ne_none _).symm
  cases op with
  | lock t =>
    by_cases hc : r.Free (some t) ∧ r.owner = none
    · exact quiet_step (if_pos hc) ⟨i.conds, i.le, i.counted, i.woken, i.locking⟩ le_rfl (by simp)
        (by simp)
    · exact idle_step i (if_neg hc) (by simp) (by simp)
  | unlock t =>
    by_cases hc : r.Free (some t) ∧ r.owner = some t
    · exact quiet_step (if_pos hc) ⟨i.conds, i.le, i.counted, i.woken, i.locking⟩ le_rfl (by simp)
        (by simp)
    · exact idle_step i (if_neg hc) (by simp) (by simp)
  | wait t timeout =>
    by_cases hfree : r.Free (some t)
    · obtain ⟨howner, hv⟩ := h hfree
      obtain ⟨hstep, hanswer⟩ := made_step r (.wait t timeout) (if_pos hfree)
      rw [pthreadCondTimedwait, if_neg (not_not.2 howner)] at hstep hanswer
      have i' : Inv (r.step (.wait t timeout)) := hstep ▸ i.wait hfree.1 hv timeout none
      refine ⟨i', behaves_of_quiet i' (by simp) (by simp) (fun hne => ?_) fun u e he => ?_⟩
      · exact absurd rfl (hne t timeout)
      · exact hnone (hanswer.symm.trans he)
    · exact idle_step i (if_neg hfree) (by simp) (by simp)
  | take t =>
    cases hc : r.conds.take t with
    | none => exact idle_step i (by rw [Run.exec, hc]; rfl) (by simp) (by simp)
    | some conds =>
      obtain ⟨ic, hle⟩ := i.take hc
      exact quiet_step (by rw [Run.exec, hc]; rfl) ic hle (by simp) (by simp)
  | wake t =>
    cases hc : r.conds.wake t with
    | none => exact idle_step i (by rw [Run.exec, hc]; rfl) (by simp) (by simp)
    | some conds =>
      obtain ⟨ic, hle⟩ := i.wake hc
      exact quiet_step (by rw [Run.exec, hc]; rfl) ic hle (by simp) (by simp)
  | relock t =>
    cases hph : r.conds.phase t with
    | none => exact idle_step i (by rw [Run.exec, hph]) (by simp) (by simp)
    | some ph =>
      cases ph with
      | window k timeout => exact idle_step i (by rw [Run.exec, hph]) (by simp) (by simp)
      | taking k => exact idle_step i (by rw [Run.exec, hph]) (by simp) (by simp)
      | locking k e =>
        by_cases howner : r.owner = none
        · obtain ⟨hstep, hanswer⟩ := made_step r (.relock t)
            (by rw [Run.exec, hph]; exact if_pos howner)
          have i' : Inv (r.step (.relock t)) := hstep ▸ i.leave hph (some t)
          refine ⟨i', behaves_of_quiet i' (by simp) (by simp) (fun _ => ?_) fun u e' he => ?_⟩
          · rw [hstep]
            exact le_rfl
          · obtain ⟨rfl, rfl⟩ := Prod.mk.inj (Option.some.inj (hanswer.symm.trans he))
            rw [hstep]
        · exact idle_step i (by rw [Run.exec, hph]; exact if_neg howner) (by simp) (by simp)
  | signal c =>
    by_cases hfree : r.Free c
    · obtain ⟨hstep, hanswer⟩ := made_step r (.signal c) (if_pos hfree)
      obtain ⟨ic, hlt⟩ := i.signal (h hfree)
      have i' : Inv (r.step (.signal c)) := hstep ▸ ic
      rw [← hstep] at hlt
      exact ⟨i', i'.locking, fun _ _ _ _ => hlt, by simp, fun _ => hlt.le,
        fun u e he => hnone (hanswer.symm.trans he)⟩
    · refine idle_step i (if_neg hfree) (fun c' hc => ?_) (by simp)
      exact Op.signal.inj hc ▸ hfree
  | broadcast c =>
    by_cases hfree : r.Free c
    · obtain ⟨hstep, hanswer⟩ := made_step r (.broadcast c) (if_pos hfree)
      obtain ⟨ic, hzero⟩ := i.broadcast (h hfree)
      have i' : Inv (r.step (.broadcast c)) := hstep ▸ ic
      rw [← hstep] at hzero
      exact ⟨i', i'.locking, by simp, fun _ _ _ => hzero, fun _ => hzero.trans_le (Nat.zero_le _),
        fun u e he => hnone (hanswer.symm.trans he)⟩
    · refine idle_step i (if_neg hfree) (by simp) fun c' hc => ?_
      exact Op.broadcast.inj hc ▸ hfree
  | expire t =>
    cases hc : r.conds.expire t with
    | none => exact idle_step i (by rw [Run.exec, hc]; rfl) (by simp) (by simp)
    | some conds =>
      obtain ⟨ic, hle⟩ := i.expire hc
      exact quiet_step (by rw [Run.exec, hc]; rfl) ic hle (by simp) (by simp)

end Steps

section Main
variable [DecidableEq τ] {r : Run τ}

theorem init_inv (h : r.conds.Init) : Inv r := by
  refine ⟨h.inv, ?_, fun hv => absurd (h.value ()) hv.ne', fun t ht => absurd ht (h.out _ _),
    fun t ht => absurd ht (h.out _ _)⟩
  rw [h.value]
  exact Nat.zero_le _

/-- CORRECT: in a run whose steps are sound no signal is kept for a wait that begins later, signals and
    broadcasts release whom they should, and each wait returns with the mutex. -/
theorem behaves_of_sound (hr : r.conds.Init) (ops : List (Op τ))
    (h : Along Run.step Sound r ops) : Along Run.step Behaves r ops :=
  Along.imp (I := Inv) (fun _ _ i hs => (i.step hs).2) (fun _ _ i hs => (i.step hs).1) ops
    (init_inv hr) h

/-- Threads that are ready, and a condition variable. -/
def start : Run ℕ where
  conds :=
    { os := { tasks := ⟨fun t => ⟨.ready, t, t, 0, 0, 0, 0, false, false, true⟩, fun _ => []⟩
              sem := fun _ => Sem.rtSemInit 0 .fifo }
      window := fun _ => []
      phase := fun _ => none }
  owner := none
  since _ := false

theorem start_init : start.conds.Init := ⟨fun _ => rfl, fun _ => rfl, fun _ => rfl, fun _ => rfl⟩

/-- One thread is suspended and one about to be when a broadcast comes; a third times out. -/
theorem behaves_of_sound_broadcast : Along Run.step Behaves start
    [.lock 0, .wait 0 (-1), .take 0, .lock 1, .wait 1 (-1), .lock 2, .broadcast (some 2), .unlock 2,
      .take 1, .relock 1, .unlock 1, .wake 0, .relock 0, .wait 0 5, .take 0, .expire 0, .wake 0,
      .relock 0] :=
  behaves_of_sound start_init _ (by decide +kernel)

/-- A signal without a waiting thread is kept, and the next wait returns at once. -/
theorem not_behaves_of_kept_signal : ¬ Along Run.step Behaves start
    [.signal none, .lock 0, .wait 0 (-1), .take 0] := by
  rintro ⟨-, -, -, h, -⟩
  exact absurd (h.fresh 0 (by decide +kernel)) (by decide +kernel)

end Main

end EasyCore.Pthreads.CondRun
