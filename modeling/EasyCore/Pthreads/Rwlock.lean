import EasyCore.Lib.Runs
import EasyCore.Pthreads.Cond

/-! Reader-writer locks (`components/pthreads/pthread_rwlock.c`). The mutex of a lock is held from one wait
    to the next, so that each part of a call in between is one step. Waiting threads are woken by an unlock
    only; a writer that gives up wakes nobody. -/

namespace EasyCore.Pthreads.Rwlock
open Function Kernel Runs Ipc Links

/-- The condition variables of a lock: `rw_condreaders`, `rw_condwriters`. -/
inductive Side
  | readers | writers
  deriving DecidableEq

/-- What a call returns: `0`, `EINVAL`, `EBUSY`, `ETIMEDOUT`. -/
inductive Result
  | ok | einval | ebusy | etimedout
  deriving DecidableEq

/-- `pthread_rwlock_t`; which waiting threads are in a timed call; and who holds the lock. -/
structure Run (τ : Type*) where
  conds : Conds Side τ
  nwaitreaders : ℤ
  nwaitwriters : ℤ
  refcount : ℤ
  timed : τ → Bool
  readers : List τ
  writer : Option τ

variable {τ : Type*}

/-- A call, a thread that goes on in its wait, or its timer. The time-out is that of the next wait, if the
    call is timed. -/
inductive Op (τ : Type*)
  | rdlock (t : τ) (timed : Bool) (timeout : ℤ)
  | tryrdlock (t : τ)
  | wrlock (t : τ) (timed : Bool) (timeout : ℤ)
  | trywrlock (t : τ)
  | unlock (t : τ)
  | take (t : τ)
  | wake (t : τ)
  | goOn (t : τ) (timeout : ℤ)
  | expire (t : τ)

/-- The result of `pthread_cond_wait` or `pthread_cond_timedwait`. -/
def condResult (timed : Bool) (e : ℤ) : Result :=
  if e = rtEok then .ok
  else if timed ∧ e = -rtEtimeout then .etimedout
  else .einval

section Exec
variable [DecidableEq τ]

/-- The time that the next wait of a call lasts. -/
def waitTime (timed : Bool) (timeout : ℤ) : ℤ := if timed then timeout else rtWaitingForever

/-- The loop of `pthread_rwlock_rdlock` and `pthread_rwlock_timedrdlock`, and what follows it. -/
def rdlockLoop (t : τ) (timed : Bool) (timeout : ℤ) (r : Run τ) : Option Result × Run τ :=
  if r.refcount < 0 ∨ r.nwaitwriters > 0 then
    (none, { r with
      nwaitreaders := r.nwaitreaders + 1
      conds := r.conds.enter t .readers (waitTime timed timeout)
      timed := update r.timed t timed })
  else (some .ok, { r with refcount := r.refcount + 1, readers := t :: r.readers })

/-- The loop of `pthread_rwlock_wrlock` and `pthread_rwlock_timedwrlock`, and what follows it. -/
def wrlockLoop (t : τ) (timed : Bool) (timeout : ℤ) (r : Run τ) : Option Result × Run τ :=
  if r.refcount ≠ 0 then
    (none, { r with
      nwaitwriters := r.nwaitwriters + 1
      conds := r.conds.enter t .writers (waitTime timed timeout)
      timed := update r.timed t timed })
  else (some .ok, { r with refcount := -1, writer := some t })

/-- `pthread_rwlock_tryrdlock` -/
def pthreadRwlockTryrdlock (t : τ) (r : Run τ) : Result × Run τ :=
  if r.refcount < 0 ∨ r.nwaitwriters > 0 then (.ebusy, r)
  else (.ok, { r with refcount := r.refcount + 1, readers := t :: r.readers })

/-- `pthread_rwlock_trywrlock` -/
def pthreadRwlockTrywrlock (t : τ) (r : Run τ) : Result × Run τ :=
  if r.refcount ≠ 0 then (.ebusy, r) else (.ok, { r with refcount := -1, writer := some t })

/-- The waiting threads that an unlock wakes. -/
def wakeWaiting (r : Run τ) : Run τ :=
  if r.nwaitwriters > 0 then
    if r.refcount = 0 then { r with conds := r.conds.signal .writers } else r
  else if r.nwaitreaders > 0 then { r with conds := r.conds.broadcast .readers }
  else r

/-- An unlock gives up the lock. -/
def release (t : τ) (r : Run τ) : Run τ :=
  { r with
    refcount := if r.refcount > 0 then r.refcount - 1 else if r.refcount = -1 then 0 else r.refcount
    readers := r.readers.erase t
    writer := if r.writer = some t then none else r.writer }

/-- `pthread_rwlock_unlock` -/
def pthreadRwlockUnlock (t : τ) (r : Run τ) : Run τ := wakeWaiting (release t r)

/-- A wait has locked the mutex again, and is counted no more. -/
def waited (t : τ) (k : Side) (r : Run τ) : Run τ :=
  match k with
  | .readers => { r with conds := r.conds.leave t, nwaitreaders := r.nwaitreaders - 1 }
  | .writers => { r with conds := r.conds.leave t, nwaitwriters := r.nwaitwriters - 1 }

/-- The call goes on after its wait: it returns an error, or goes back to its loop. -/
def afterWait (t : τ) (timeout : ℤ) (r : Run τ) : Option (Option Result × Run τ) :=
  match r.conds.phase t with
  | some (.locking k e) =>
    some (if condResult (r.timed t) e ≠ .ok then (some (condResult (r.timed t) e), waited t k r)
      else match k with
        | .readers => rdlockLoop t (r.timed t) timeout (waited t k r)
        | .writers => wrlockLoop t (r.timed t) timeout (waited t k r))
  | _ => none

/-- A thread that is inside no call on the lock. -/
def Run.Free (r : Run τ) (t : τ) : Prop := r.conds.phase t = none ∧ r.conds.stat t = .ready

instance (r : Run τ) (t : τ) : Decidable (r.Free t) := inferInstanceAs (Decidable (_ ∧ _))

/-- One step, and the result of the call that returns in it. -/
def Run.exec (r : Run τ) : Op τ → Option (Option Result × Run τ)
  | .rdlock t timed timeout => if r.Free t then some (rdlockLoop t timed timeout r) else none
  | .tryrdlock t =>
    if r.Free t then some (some (pthreadRwlockTryrdlock t r).1, (pthreadRwlockTryrdlock t r).2)
    else none
  | .wrlock t timed timeout => if r.Free t then some (wrlockLoop t timed timeout r) else none
  | .trywrlock t =>
    if r.Free t then some (some (pthreadRwlockTrywrlock t r).1, (pthreadRwlockTrywrlock t r).2)
    else none
  | .unlock t => if r.Free t then some (some .ok, pthreadRwlockUnlock t r) else none
  | .take t => (r.conds.take t).map fun conds => (none, { r with conds := conds })
  | .wake t => (r.conds.wake t).map fun conds => (none, { r with conds := conds })
  | .goOn t timeout => afterWait t timeout r
  | .expire t => (r.conds.expire t).map fun conds => (none, { r with conds := conds })

def Run.step (r : Run τ) (op : Op τ) : Run τ := ((r.exec op).map Prod.snd).getD r

end Exec

/-- Nobody waits to read in vain: the suspended readers have been woken, and the others find a count. -/
def Run.Released (r : Run τ) : Prop :=
  r.conds.suspended .readers = [] ∧ (r.conds.window .readers).length ≤ r.conds.value .readers

instance (r : Run τ) : Decidable r.Released :=
  haveI : Decidable (r.conds.suspended .readers = []) := decidable_of_iff _ List.isEmpty_iff
  inferInstanceAs (Decidable (_ ∧ _))

/-- One writer at most holds the lock, and then no reader; and the counts are those of the threads. -/
structure Counts (r : Run τ) : Prop where
  exclusive : r.writer ≠ none → r.readers = []
  refcount : r.refcount = if r.writer = none then (r.readers.length : ℤ) else -1
  nwaitreaders : r.conds.Counted .readers r.nwaitreaders
  nwaitwriters : r.conds.Counted .writers r.nwaitwriters

/-- With no writer that holds the lock or waits for it no reader stays blocked. -/
def Awake (r : Run τ) : Prop := r.writer = none → (∀ t, ¬ r.conds.Waits .writers t) → r.Released

/-- What should hold after every step. -/
structure Good (r : Run τ) : Prop where
  counts : Counts r
  awake : Awake r

/-- The wait of a writer has failed. -/
def Run.GivesUp (r : Run τ) (t : τ) : Prop :=
  match r.conds.phase t with
  | some (.locking .writers e) => condResult (r.timed t) e ≠ .ok
  | _ => False

instance (r : Run τ) (t : τ) : Decidable (r.GivesUp t) := by
  unfold Run.GivesUp
  split <;> infer_instance

/-- An unlock is called by a thread that holds the lock (or nobody does), and if it wakes the readers, not
    more than one of them, or than there are counts, is in front of the semaphore; and a writer whose wait
    fails, with no other writer, leaves no reader blocked. -/
def Sound (r : Run τ) : Op τ → Prop
  | .unlock t => r.Free t →
    (r.refcount ≠ 0 → r.writer = some t ∨ t ∈ r.readers) ∧
    (r.nwaitwriters = 0 → r.nwaitreaders ≠ 0 →
      (r.conds.window .readers).length ≤ max (r.conds.value .readers) 1)
  | .goOn t _ => r.GivesUp t → r.nwaitwriters = 1 → 0 ≤ r.refcount → r.Released
  | _ => True

instance [DecidableEq τ] (r : Run τ) (op : Op τ) : Decidable (Sound r op) := by
  cases op <;> unfold Sound <;> infer_instance

/-- Nobody holds the lock or waits for it: `pthread_rwlock_init` -/
structure Run.Init (r : Run τ) : Prop where
  conds : r.conds.Init
  nwaitreaders : r.nwaitreaders = 0
  nwaitwriters : r.nwaitwriters = 0
  refcount : r.refcount = 0
  readers : r.readers = []
  writer : r.writer = none

/-- The waits are in order, and what should hold does. -/
structure Inv [DecidableEq τ] (r : Run τ) : Prop where
  conds : r.conds.Inv
  good : Good r

/-! ### The counts -/

section Counts
variable {r : Run τ}

/-- A count that is not negative is that of the readers. -/
theorem Counts.writer_eq_none (c : Counts r) (h : 0 ≤ r.refcount) : r.writer = none := by
  by_contra hw
  rw [c.refcount, if_neg hw] at h
  exact absurd h (by decide)

theorem Counts.length_readers (c : Counts r) (h : r.writer = none) : r.refcount = r.readers.length := by
  rw [c.refcount, if_pos h]

/-- A reader that has to wait does so for a writer. -/
theorem Counts.awake_of_busy (c : Counts r) (h : r.refcount < 0 ∨ r.nwaitwriters > 0) : Awake r := by
  intro hw hno
  obtain hneg | hpos := h
  · rw [c.length_readers hw] at hneg
    exact absurd (Int.natCast_nonneg _) (not_le.2 hneg)
  · exact absurd (c.nwaitwriters.zero_iff.2 hno) hpos.ne'

/-- One more reader. -/
theorem Good.read (g : Good r) (h : 0 ≤ r.refcount) (t : τ) :
    Good { r with refcount := r.refcount + 1, readers := t :: r.readers } := by
  have hw := g.counts.writer_eq_none h
  refine ⟨⟨fun hne => absurd hw hne, ?_, g.counts.nwaitreaders, g.counts.nwaitwriters⟩, g.awake⟩
  rw [if_pos hw, g.counts.length_readers hw]
  simp

/-- The lock is free, and a writer takes it. -/
theorem Counts.write (c : Counts r) (h : r.refcount = 0) (t : τ) :
    Good { r with refcount := -1, writer := some t } := by
  have hlen := c.length_readers (c.writer_eq_none h.ge)
  rw [h] at hlen
  refine ⟨⟨fun _ => List.length_eq_zero_iff.1 (Int.natCast_eq_zero.1 hlen.symm), rfl, c.nwaitreaders,
    c.nwaitwriters⟩, fun hw => absurd hw (Option.some_ne_none _)⟩

theorem Counts.neg_one_le (c : Counts r) : -1 ≤ r.refcount := by
  rw [c.refcount]
  split_ifs <;> omega

theorem tryrdlock_good (g : Good r) (t : τ) : Good (pthreadRwlockTryrdlock t r).2 := by
  unfold pthreadRwlockTryrdlock
  split
  next => exact g
  next hfree => exact g.read (not_lt.1 fun hneg => hfree (Or.inl hneg)) t

theorem trywrlock_good (g : Good r) (t : τ) : Good (pthreadRwlockTrywrlock t r).2 := by
  unfold pthreadRwlockTrywrlock
  split
  next => exact g
  next hfree => exact g.counts.write (not_not.1 hfree) t

variable [DecidableEq τ] {t : τ} {timed : Bool} {timeout : ℤ}

theorem rdlockLoop_good (g : Good r) (ht : r.conds.phase t = none) :
    Good (rdlockLoop t timed timeout r).2 := by
  have c := g.counts
  unfold rdlockLoop
  split
  next hbusy =>
    have c' : Counts { r with
        nwaitreaders := r.nwaitreaders + 1
        conds := r.conds.enter t .readers (waitTime timed timeout)
        timed := update r.timed t timed } :=
      ⟨c.exclusive, c.refcount, c.nwaitreaders.enter ht _,
        c.nwaitwriters.enter_ne ht Side.noConfusion _⟩
    exact ⟨c', c'.awake_of_busy hbusy⟩
  next hfree => exact g.read (not_lt.1 fun hneg => hfree (Or.inl hneg)) t

theorem wrlockLoop_good (c : Counts r) (ht : r.conds.phase t = none) :
    Good (wrlockLoop t timed timeout r).2 := by
  unfold wrlockLoop
  split
  next hbusy =>
    have c' : Counts { r with
        nwaitwriters := r.nwaitwriters + 1
        conds := r.conds.enter t .writers (waitTime timed timeout)
        timed := update r.timed t timed } :=
      ⟨c.exclusive, c.refcount, c.nwaitreaders.enter_ne ht Side.noConfusion _,
        c.nwaitwriters.enter ht _⟩
    exact ⟨c', c'.awake_of_busy (Or.inr (Int.lt_add_one_of_le c.nwaitwriters.nonneg))⟩
  next hfree => exact c.write (not_not.1 hfree) t

/-- The counts are right after an unlock if its caller holds the lock, or nobody does. -/
theorem release_counts (c : Counts r) :
    Counts (release t r) ↔ (r.refcount ≠ 0 → r.writer = some t ∨ t ∈ r.readers) := by
  constructor
  · intro c' hne
    by_contra hnot
    obtain ⟨hw, hr⟩ := not_or.1 hnot
    have hcount := c'.refcount
    simp only [release, if_neg hw, List.erase_of_not_mem hr] at hcount
    rw [← c.refcount] at hcount
    have hge := c.neg_one_le
    split_ifs at hcount <;> omega
  · intro h
    refine ⟨fun hw => ?_, ?_, c.nwaitreaders, c.nwaitwriters⟩
    · have hne : r.writer ≠ none := fun hnone => by simp [release, hnone] at hw
      simp only [release, c.exclusive hne, List.erase_nil]
    · by_cases hw : r.writer = none
      · have hlen := c.length_readers hw
        obtain hzero | hpos := (hlen ▸ Int.natCast_nonneg _ : 0 ≤ r.refcount).eq_or_lt
        · have hnil : r.readers = [] :=
            List.length_eq_zero_iff.1 (Int.natCast_eq_zero.1 (hlen.symm.trans hzero.symm))
          simp [release, hw, hnil, ← hzero]
        · have hmem : t ∈ r.readers :=
            (h hpos.ne').resolve_left (hw ▸ (Option.some_ne_none t).symm)
          have herase := List.length_erase_add_one hmem
          simp only [release, hw, if_pos hpos, reduceCtorEq, if_false, if_true]
          omega
      · have hneg : r.refcount = -1 := by rw [c.refcount, if_neg hw]
        have hmine : r.writer = some t := by
          refine (h (hneg ▸ by decide)).resolve_right fun hmem => ?_
          exact absurd (c.exclusive hw ▸ hmem) List.not_mem_nil
        simp [release, hneg, hmine, c.exclusive hw]

/-- After an unlock that its caller may make no writer has the lock. -/
theorem release_writer (c : Counts r) (h : r.refcount ≠ 0 → r.writer = some t ∨ t ∈ r.readers) :
    (release t r).writer = none := by
  by_cases hw : r.writer = none
  · simp [release, hw]
  · have hmine : r.writer = some t := by
      refine (h (by rw [c.refcount, if_neg hw]; decide)).resolve_right fun hmem => ?_
      exact absurd (c.exclusive hw ▸ hmem) List.not_mem_nil
    simp [release, hmine]

end Counts

/-! ### Waking -/

section Wake
variable [DecidableEq τ] {r : Run τ} {t : τ}

omit [DecidableEq τ] in
/-- With no reader that waits there is none to wake. -/
theorem released_of_none (i : r.conds.Inv) (h : ∀ t, ¬ r.conds.Waits .readers t) : r.Released := by
  constructor
  · refine List.eq_nil_iff_forall_not_mem.2 fun t ht => ?_
    exact h t ⟨_, i.phase_of_suspended ht, rfl⟩
  · have hnil : r.conds.window .readers = [] := by
      refine List.eq_nil_iff_forall_not_mem.2 fun t ht => ?_
      obtain ⟨timeout, hph⟩ := (i.mem .readers t).1 ht
      exact h t ⟨_, hph, rfl⟩
    rw [hnil]
    exact Nat.zero_le _

theorem wakeWaiting_counts (c : Counts r) : Counts (wakeWaiting r) := by
  unfold wakeWaiting
  split_ifs <;> exact ⟨c.exclusive, c.refcount, c.nwaitreaders, c.nwaitwriters⟩

/-- A broadcast wakes the suspended readers, and leaves one count for the others. -/
theorem wakeWaiting_awake (i : r.conds.Inv) (c : Counts r) (hw : r.writer = none) :
    Awake (wakeWaiting r) ↔ (r.nwaitwriters = 0 → r.nwaitreaders ≠ 0 →
      (r.conds.window .readers).length ≤ max (r.conds.value .readers) 1) := by
  unfold wakeWaiting
  by_cases hwriters : r.nwaitwriters > 0
  · rw [if_pos hwriters]
    refine iff_of_true ?_ fun hzero => absurd hzero hwriters.ne'
    split_ifs
    · exact Counts.awake_of_busy ⟨c.exclusive, c.refcount, c.nwaitreaders, c.nwaitwriters⟩
        (Or.inr hwriters)
    · exact c.awake_of_busy (Or.inr hwriters)
  · have hzero : r.nwaitwriters = 0 := le_antisymm (not_lt.1 hwriters) c.nwaitwriters.nonneg
    rw [if_neg hwriters]
    by_cases hreaders : r.nwaitreaders > 0
    · rw [if_pos hreaders]
      obtain ⟨-, hs, hv, -⟩ := i.broadcast Side.readers
      constructor
      · intro h _ _
        have hrel := (h hw (c.nwaitwriters.zero_iff.1 hzero)).2
        dsimp only at hrel
        rwa [hv, update_self] at hrel
      · intro h _ _
        refine ⟨?_, ?_⟩
        · dsimp only
          rw [hs, update_self]
        · dsimp only
          rw [hv, update_self]
          exact h hzero hreaders.ne'
    · rw [if_neg hreaders]
      have hnone : r.nwaitreaders = 0 := le_antisymm (not_lt.1 hreaders) c.nwaitreaders.nonneg
      refine iff_of_true (fun _ _ => ?_) fun _ hne => absurd hnone hne
      exact released_of_none i (c.nwaitreaders.zero_iff.1 hnone)

theorem unlock_good (i : Inv r) (t : τ) : Good (pthreadRwlockUnlock t r) ↔
    (r.refcount ≠ 0 → r.writer = some t ∨ t ∈ r.readers) ∧
    (r.nwaitwriters = 0 → r.nwaitreaders ≠ 0 →
      (r.conds.window .readers).length ≤ max (r.conds.value .readers) 1) := by
  have c := i.good.counts
  constructor
  · intro g
    have c' : Counts (release t r) := by
      have c₁ := g.counts
      unfold pthreadRwlockUnlock wakeWaiting at c₁
      split_ifs at c₁ <;>
        exact ⟨c₁.exclusive, c₁.refcount, c.nwaitreaders, c.nwaitwriters⟩
    have hheld := (release_counts c).1 c'
    exact ⟨hheld, (wakeWaiting_awake (r := release t r) i.conds c' (release_writer c hheld)).1 g.awake⟩
  · rintro ⟨hheld, hwindow⟩
    have c' := (release_counts c).2 hheld
    exact ⟨wakeWaiting_counts c',
      (wakeWaiting_awake (r := release t r) i.conds c' (release_writer c hheld)).2 hwindow⟩

/-! ### After a wait -/

theorem Counts.waited (c : Counts r) {k : Side} {e : ℤ} (ht : r.conds.phase t = some (.locking k e)) :
    Counts (waited t k r) := by
  have hwaits : r.conds.Waits k t := ⟨_, ht, rfl⟩
  have hother : ∀ k', k ≠ k' → ¬ r.conds.Waits k' t := by
    rintro k' hk ⟨ph, hph, rfl⟩
    obtain rfl := Option.some.inj (ht.symm.trans hph)
    exact hk rfl
  cases k with
  | readers =>
    exact ⟨c.exclusive, c.refcount, c.nwaitreaders.leave hwaits,
      c.nwaitwriters.leave_ne (hother _ Side.noConfusion)⟩
  | writers =>
    exact ⟨c.exclusive, c.refcount, c.nwaitreaders.leave_ne (hother _ Side.noConfusion),
      c.nwaitwriters.leave hwaits⟩

/-- A reader that has waited leaves the others as they are. -/
theorem Good.waited (g : Good r) {e : ℤ} (ht : r.conds.phase t = some (.locking .readers e)) :
    Good (waited t .readers r) := by
  refine ⟨g.counts.waited ht, fun hw hno => g.awake hw fun u => ?_⟩
  rintro ⟨ph, hph, hcond⟩
  refine hno u ⟨ph, ?_, hcond⟩
  have hut : u ≠ t := by
    rintro rfl
    obtain rfl := Option.some.inj (ht.symm.trans hph)
    exact Side.noConfusion hcond
  exact (update_of_ne hut none _).trans hph

/-- A writer that gives up wakes nobody. -/
theorem waited_awake (c : Counts r) {e : ℤ} (ht : r.conds.phase t = some (.locking .writers e)) :
    Awake (waited t .writers r) ↔ (r.nwaitwriters = 1 → 0 ≤ r.refcount → r.Released) := by
  have c' := c.waited ht
  have hiff := c'.nwaitwriters.zero_iff
  constructor
  · intro h hone hpos
    refine h (c.writer_eq_none hpos) (hiff.1 ?_)
    exact sub_eq_zero.2 hone
  · intro h hw hno
    refine h (sub_eq_zero.1 (hiff.2 hno)) ?_
    rw [c.length_readers hw]
    exact Int.natCast_nonneg _

theorem phase_waited (k : Side) : (waited t k r).conds.phase t = none := by
  cases k <;> exact update_self ..

theorem afterWait_phase {timeout : ℤ} {res : Option Result × Run τ}
    (h : afterWait t timeout r = some res) : ∃ k e, r.conds.phase t = some (.locking k e) := by
  unfold afterWait at h
  split at h
  next k e ht => exact ⟨k, e, ht⟩
  next => exact absurd h (Option.some_ne_none _).symm

/-- A call goes on after its wait. -/
theorem afterWait_good (i : Inv r) {timeout : ℤ} {res : Option Result × Run τ}
    (h : afterWait t timeout r = some res) : Good res.2 ↔ (r.GivesUp t → r.nwaitwriters = 1 → 0 ≤ r.refcount → r.Released) := by
  have c := i.good.counts
  obtain ⟨k, e, ht⟩ := afterWait_phase h
  unfold afterWait at h
  rw [ht] at h
  obtain rfl := Option.some.inj h
  cases k with
  | readers =>
    have g := i.good.waited ht
    refine iff_of_true ?_ fun hgives => ?_
    · split_ifs
      · exact g
      · exact rdlockLoop_good g (phase_waited .readers)
    · rw [Run.GivesUp, ht] at hgives
      exact hgives.elim
  | writers =>
    rw [Run.GivesUp, ht]
    split_ifs with hres
    · have hiff := waited_awake c ht
      exact ⟨fun g _ => hiff.1 g.awake, fun h => ⟨c.waited ht, hiff.2 (h hres)⟩⟩
    · exact iff_of_true (wrlockLoop_good (c.waited ht) (phase_waited .writers))
        fun hgives => absurd hgives hres

end Wake

/-! ### Runs -/

section Steps
variable [DecidableEq τ] {r : Run τ} {t : τ} {op : Op τ}

theorem rdlockLoop_conds (i : r.conds.Inv) (ht : r.conds.phase t = none) (timed : Bool) (timeout : ℤ) :
    (rdlockLoop t timed timeout r).2.conds.Inv := by
  unfold rdlockLoop
  split_ifs
  · exact i.enter ht .readers _
  · exact i

theorem wrlockLoop_conds (i : r.conds.Inv) (ht : r.conds.phase t = none) (timed : Bool) (timeout : ℤ) :
    (wrlockLoop t timed timeout r).2.conds.Inv := by
  unfold wrlockLoop
  split_ifs
  · exact i.enter ht .writers _
  · exact i

theorem unlock_conds (i : r.conds.Inv) (t : τ) : (pthreadRwlockUnlock t r).conds.Inv := by
  unfold pthreadRwlockUnlock wakeWaiting
  split_ifs
  · exact i.signal .writers
  · exact i
  · exact (i.broadcast .readers).1
  · exact i

theorem afterWait_conds (i : r.conds.Inv) {timeout : ℤ} {res : Option Result × Run τ}
    (h : afterWait t timeout r = some res) : res.2.conds.Inv := by
  obtain ⟨k, e, ht⟩ := afterWait_phase h
  unfold afterWait at h
  rw [ht] at h
  obtain rfl := Option.some.inj h
  have hphase : (waited t k r).conds.phase t = none := phase_waited k
  have i' : (waited t k r).conds.Inv := by
    cases k <;> exact i.leave ht
  split_ifs
  · exact i'
  · cases k with
    | readers => exact rdlockLoop_conds i' hphase _ timeout
    | writers => exact wrlockLoop_conds i' hphase _ timeout

theorem step_of_some {res : Option Result × Run τ} (h : r.exec op = some res) : r.step op = res.2 := by
  rw [Run.step, h]
  rfl

theorem step_of_none (h : r.exec op = none) : r.step op = r := by
  rw [Run.step, h]
  rfl

/-- A step of a waiting thread changes neither the counts nor who waits. -/
theorem Good.move (i : Inv r) {conds : Conds Side τ}
    (hw : ∀ k u, conds.Waits k u ↔ r.conds.Waits k u)
    (h : (∀ t, ¬ r.conds.Waits .writers t) → r.Released → Run.Released { r with conds := conds }) :
    Good { r with conds := conds } := by
  have c := i.good.counts
  refine ⟨⟨c.exclusive, c.refcount, c.nwaitreaders.congr (hw _), c.nwaitwriters.congr (hw _)⟩,
    fun hwriter hno => ?_⟩
  have hsame : ∀ u, ¬ r.conds.Waits .writers u := fun u hu => hno u ((hw _ u).2 hu)
  exact h hsame (i.good.awake hwriter hsame)

theorem Good.take (i : Inv r) {conds : Conds Side τ} (h : r.conds.take t = some conds) :
    Good { r with conds := conds } := by
  obtain ⟨k, timeout, ht, hmem, hwindow, htaken⟩ := i.conds.taken h
  have hk : (∀ u, ¬ r.conds.Waits .writers u) → k = .readers := by
    intro hno
    cases k with
    | readers => rfl
    | writers => exact absurd ⟨_, ht, rfl⟩ (hno t)
  have hpos : 0 < (r.conds.window k).length := List.length_pos_of_mem hmem
  cases htaken with
  | counted hv value suspended error phase =>
    refine Good.move i (fun k u => Conds.waits_move ht phase rfl k u) fun hno hrel => ?_
    obtain rfl := hk hno
    refine ⟨suspended ▸ hrel.1, ?_⟩
    dsimp only
    rw [hwindow, update_self, List.length_erase_of_mem hmem, value, update_self]
    exact Nat.sub_le_sub_right hrel.2 1
  | refused hv htime value suspended error phase =>
    refine Good.move i (fun k u => Conds.waits_move ht phase rfl k u) fun hno hrel => ?_
    obtain rfl := hk hno
    exact absurd hv (hpos.trans_le hrel.2).ne'
  | slept hv value perm suspended error phase =>
    refine Good.move i (fun k u => Conds.waits_move ht phase rfl k u) fun hno hrel => ?_
    obtain rfl := hk hno
    exact absurd hv (hpos.trans_le hrel.2).ne'

theorem Good.wake (i : Inv r) {conds : Conds Side τ} (h : r.conds.wake t = some conds) :
    Good { r with conds := conds } := by
  refine Good.move i (Conds.waits_wake h) fun _ hrel => ?_
  obtain ⟨k, -, -, rfl⟩ := Conds.wake_cases h
  exact hrel

theorem Good.expire (i : Inv r) {conds : Conds Side τ} (h : r.conds.expire t = some conds) :
    Good { r with conds := conds } := by
  obtain ⟨-, hs, hv, hw, hph, -⟩ := i.conds.expire h
  refine Good.move i (fun k u => by unfold Conds.Waits; rw [hph]) fun _ hrel => ⟨?_, ?_⟩
  · dsimp only
    rw [hs, without, hrel.1, List.erase_nil]
  · dsimp only
    rw [hv, hw]
    exact hrel.2

theorem good_iff (i : Inv r) : Good (r.step op) ↔ Sound r op := by
  cases op with
  | rdlock t timed timeout =>
    rw [Run.step, Run.exec]
    refine iff_of_true ?_ trivial
    split_ifs with hfree
    · exact rdlockLoop_good i.good hfree.1
    · exact i.good
  | tryrdlock t =>
    rw [Run.step, Run.exec]
    refine iff_of_true ?_ trivial
    split_ifs
    · exact tryrdlock_good i.good t
    · exact i.good
  | wrlock t timed timeout =>
    rw [Run.step, Run.exec]
    refine iff_of_true ?_ trivial
    split_ifs with hfree
    · exact wrlockLoop_good i.good.counts hfree.1
    · exact i.good
  | trywrlock t =>
    rw [Run.step, Run.exec]
    refine iff_of_true ?_ trivial
    split_ifs
    · exact trywrlock_good i.good t
    · exact i.good
  | unlock t =>
    rw [Run.step, Run.exec]
    split_ifs with hfree
    · exact (unlock_good i t).trans ⟨fun h _ => h, fun h => h hfree⟩
    · exact iff_of_true i.good fun h => absurd h hfree
  | take t =>
    rw [Run.step, Run.exec]
    refine iff_of_true ?_ trivial
    cases hc : r.conds.take t with
    | none => exact i.good
    | some conds => exact Good.take i hc
  | wake t =>
    rw [Run.step, Run.exec]
    refine iff_of_true ?_ trivial
    cases hc : r.conds.wake t with
    | none => exact i.good
    | some conds => exact Good.wake i hc
  | goOn t timeout =>
    cases ha : afterWait t timeout r with
    | none =>
      have hstep : r.step (.goOn t timeout) = r := step_of_none ha
      rw [hstep]
      refine iff_of_true i.good fun hgives => ?_
      unfold Run.GivesUp at hgives
      unfold afterWait at ha
      split at hgives
      next e ht =>
        rw [ht] at ha
        exact absurd ha (Option.some_ne_none _)
      next => exact hgives.elim
    | some res =>
      have hstep : r.step (.goOn t timeout) = res.2 := step_of_some ha
      rw [hstep]
      exact afterWait_good i ha
  | expire t =>
    rw [Run.step, Run.exec]
    refine iff_of_true ?_ trivial
    cases hc : r.conds.expire t with
    | none => exact i.good
    | some conds => exact Good.expire i hc

theorem step_conds (i : r.conds.Inv) (op : Op τ) : (r.step op).conds.Inv := by
  cases hop : r.exec op with
  | none =>
    rw [step_of_none hop]
    exact i
  | some res =>
    rw [step_of_some hop]
    cases op with
    | rdlock t timed timeout =>
      obtain ⟨hfree, h⟩ := Option.ite_none_right_eq_some.1 hop
      obtain rfl := Option.some.inj h
      exact rdlockLoop_conds i hfree.1 timed timeout
    | tryrdlock t =>
      obtain ⟨-, h⟩ := Option.ite_none_right_eq_some.1 hop
      obtain rfl := Option.some.inj h
      unfold pthreadRwlockTryrdlock
      split_ifs <;> exact i
    | wrlock t timed timeout =>
      obtain ⟨hfree, h⟩ := Option.ite_none_right_eq_some.1 hop
      obtain rfl := Option.some.inj h
      exact wrlockLoop_conds i hfree.1 timed timeout
    | trywrlock t =>
      obtain ⟨-, h⟩ := Option.ite_none_right_eq_some.1 hop
      obtain rfl := Option.some.inj h
      unfold pthreadRwlockTrywrlock
      split_ifs <;> exact i
    | unlock t =>
      obtain ⟨-, h⟩ := Option.ite_none_right_eq_some.1 hop
      obtain rfl := Option.some.inj h
      exact unlock_conds i t
    | take t =>
      obtain ⟨conds, hc, rfl⟩ := Option.map_eq_some_iff.1 hop
      exact i.take hc
    | wake t =>
      obtain ⟨conds, hc, rfl⟩ := Option.map_eq_some_iff.1 hop
      exact i.wake hc
    | goOn t timeout => exact afterWait_conds i hop
    | expire t =>
      obtain ⟨conds, hc, rfl⟩ := Option.map_eq_some_iff.1 hop
      exact (i.expire hc).1

theorem init_inv (h : r.Init) : Inv r := by
  have hnone : ∀ k u, ¬ r.conds.Waits k u := by
    rintro k u ⟨ph, hph, -⟩
    exact h.conds.out u ph hph
  have hcounted : ∀ k, r.conds.Counted k 0 := fun k =>
    ⟨[], List.nodup_nil, fun u => iff_of_false List.not_mem_nil (hnone k u), rfl⟩
  refine ⟨h.conds.inv, ⟨fun _ => h.readers, ?_, h.nwaitreaders ▸ hcounted _,
    h.nwaitwriters ▸ hcounted _⟩, fun _ _ => released_of_none h.conds.inv (hnone _)⟩
  rw [if_pos h.writer, h.refcount, h.readers]
  rfl

/-- CORRECT: a lock does what it should as long as it is unlocked by those who hold it, not more than one
    reader has not come to the semaphore when the readers are woken, and no writer that gives up is the
    only reason why readers wait; and only then. -/
theorem good_of_sound (hr : r.Init) (ops : List (Op τ)) :
    Along Run.step (fun r op => Good (r.step op)) r ops ↔ Along Run.step Sound r ops :=
  Along.iff (I := Inv) (fun _ _ i => good_iff i)
    (fun _ op i h => ⟨step_conds i.conds op, (good_iff i).2 h⟩) ops (init_inv hr)

/-- Threads that are ready, and a lock that nobody has. -/
def start : Run ℕ where
  conds :=
    { os := { tasks := ⟨fun t => ⟨.ready, t, t, 0, 0, 0, 0, false, false, true⟩, fun _ => []⟩
              sem := fun _ => Sem.rtSemInit 0 .fifo }
      window := fun _ => []
      phase := fun _ => none }
  nwaitreaders := 0
  nwaitwriters := 0
  refcount := 0
  timed _ := false
  readers := []
  writer := none

theorem start_init : start.Init := ⟨⟨fun _ => rfl, fun _ => rfl, fun _ => rfl, fun _ => rfl⟩,
  rfl, rfl, rfl, rfl, rfl⟩

/-- A reader waits for a writer, which waits for another reader. -/
theorem good_of_sound_handover : Along Run.step (fun r op => Good (r.step op)) start
    [.rdlock 0 false 0, .wrlock 1 false 0, .take 1, .rdlock 2 false 0, .take 2, .unlock 0, .wake 1,
      .goOn 1 0, .unlock 1, .wake 2, .goOn 2 0] :=
  (good_of_sound start_init _).2 (by decide +kernel)

/-- A writer gives up, and the reader that waits because of it stays blocked. -/
theorem not_good_of_timed_writer : ¬ Along Run.step (fun r op => Good (r.step op)) start
    [.rdlock 0 false 0, .wrlock 1 true 5, .take 1, .rdlock 2 false 0, .take 2, .expire 1, .wake 1,
      .goOn 1 5] := by
  rintro ⟨-, -, -, -, -, -, -, h, -⟩
  have hnone := h.counts.nwaitwriters.zero_iff.1 (by decide +kernel)
  have hreleased := h.awake (by decide +kernel) hnone
  exact absurd (congrArg List.length hreleased.1) (by decide +kernel)

end Steps

end EasyCore.Pthreads.Rwlock
