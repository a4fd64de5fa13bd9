import EasyCore.Lib.Runs
import EasyCore.Pthreads.Cond

/-! Barriers (`components/pthreads/pthread_barrier.c`). The mutex of a barrier is held from an arrival to its
    wait, so that an arrival is one step; the broadcast of the last one reaches the threads that are
    suspended, and one that is about to be. -/

namespace EasyCore.Pthreads.Barrier
open Function Kernel Runs Ipc

/-- `pthread_barrier_t`; and how many calls of `pthread_barrier_wait` have arrived, with the number of each
    thread's own. -/
structure Run (τ : Type*) where
  conds : Conds Unit τ
  count : ℕ
  arrivals : ℕ
  number : τ → ℕ

variable {τ : Type*}

/-- A call arrives, or goes on: `rt_sem_take` in its wait, its end after a wake-up, and the return. -/
inductive Op (τ : Type*)
  | arrive (t : τ)
  | take (t : τ)
  | wake (t : τ)
  | leave (t : τ)

section Exec
variable [DecidableEq τ]

/-- `pthread_barrier_wait` up to the unlock of its mutex: the result, if the caller does not wait. -/
def pthreadBarrierWait (t : τ) (r : Run τ) : Option ℤ × Run τ :=
  if r.count = 0 then (some einval, r)
  else
    let r := { r with count := r.count - 1 }
    if r.count = 0 then (some 0, { r with conds := r.conds.broadcast () })
    else (none, { r with conds := r.conds.enter t () rtWaitingForever })

/-- One step, and the call that returns in it. -/
def Run.exec (r : Run τ) : Op τ → Option (Option (τ × ℤ) × Run τ)
  | .arrive t =>
    if r.conds.phase t = none ∧ r.conds.stat t = .ready then
      let res := pthreadBarrierWait t r
      some (res.1.map fun e => (t, e),
        { res.2 with arrivals := r.arrivals + 1, number := update r.number t r.arrivals })
    else none
  | .take t => (r.conds.take t).map fun conds => (none, { r with conds := conds })
  | .wake t => (r.conds.wake t).map fun conds => (none, { r with conds := conds })
  | .leave t =>
    match r.conds.phase t with
    | some (.locking _ _) => some (some (t, 0), { r with conds := r.conds.leave t })
    | _ => none

def Run.step (r : Run τ) (op : Op τ) : Run τ := ((r.exec op).map Prod.snd).getD r

/-- The call that returns in a step, and its result. -/
def Run.answer (r : Run τ) (op : Op τ) : Option (τ × ℤ) := (r.exec op).bind Prod.fst

/-- How many calls have arrived in the rounds that are complete. -/
def Run.complete (r : Run τ) (size : ℕ) : ℕ := size * (r.arrivals / size)

/-- A call returns without an error, and its round is complete; the threads of complete rounds are
    released: none of them is suspended, and those that are about to take the semaphore find a count. -/
structure Behaves (size : ℕ) (r : Run τ) (op : Op τ) : Prop where
  result : ∀ t e, r.answer op = some (t, e) → e = 0
  early : ∀ t e, r.answer op = some (t, e) → (r.step op).number t < (r.step op).complete size
  suspended : ∀ t ∈ (r.step op).conds.suspended (), (r.step op).complete size ≤ (r.step op).number t
  window : (((r.step op).conds.window ()).filter fun t =>
    (r.step op).number t < (r.step op).complete size).length ≤ (r.step op).conds.value ()

/-- An arrival is one of the first `size`, and at the last of them not more than one thread is about to
    take the semaphore. -/
def InFirstRound (r : Run τ) : Op τ → Prop
  | .arrive t => r.conds.phase t = none ∧ r.conds.stat t = .ready →
    r.count ≠ 0 ∧ (r.count = 1 → (r.conds.window ()).length ≤ 1)
  | _ => True

instance (r : Run τ) (op : Op τ) : Decidable (InFirstRound r op) := by
  cases op <;> unfold InFirstRound <;> infer_instance

end Exec

/-- A barrier for `size` threads: `pthread_barrier_init` -/
structure Run.Init (r : Run τ) (size : ℕ) : Prop where
  conds : r.conds.Init
  count : r.count = size
  arrivals : r.arrivals = 0

/-- The first round: before its end the semaphore has no count and nobody is released, and at its end
    everybody is. -/
structure Inv [DecidableEq τ] (size : ℕ) (r : Run τ) : Prop where
  conds : r.conds.Inv
  le : r.arrivals ≤ size
  count : r.count = size - r.arrivals
  forever : ∀ t timeout, r.conds.phase t = some (.window () timeout) → timeout = rtWaitingForever
  number : ∀ t, r.conds.phase t ≠ none → r.number t < r.arrivals
  value : r.arrivals < size → r.conds.value () = 0
  taking : r.arrivals < size → ∀ t, r.conds.phase t = some (.taking ()) → t ∈ r.conds.suspended ()
  locking : r.arrivals < size → ∀ t e, r.conds.phase t ≠ some (.locking () e)
  released : r.arrivals = size →
    r.conds.suspended () = [] ∧ (r.conds.window ()).length ≤ r.conds.value ()

section Steps
variable [DecidableEq τ] {r r' : Run τ} {size : ℕ} {t : τ} {op : Op τ}

omit [DecidableEq τ] in
theorem complete_of_lt (h : r.arrivals < size) : r.complete size = 0 := by
  rw [Run.complete, Nat.div_eq_of_lt h, Nat.mul_zero]

omit [DecidableEq τ] in
theorem complete_of_eq (h : r.arrivals = size) : r.complete size = size := by
  rw [Run.complete, h]
  obtain rfl | hpos := Nat.eq_zero_or_pos size
  · rfl
  · rw [Nat.div_self hpos, Nat.mul_one]

/-- In the first round everybody behaves. -/
theorem Inv.sound (i : Inv size r) : (∀ t ∈ r.conds.suspended (), r.complete size ≤ r.number t) ∧
    ((r.conds.window ()).filter fun t => r.number t < r.complete size).length
      ≤ r.conds.value () := by
  obtain hlt | heq := i.le.lt_or_eq
  · rw [complete_of_lt hlt]
    refine ⟨fun _ _ => Nat.zero_le _, ?_⟩
    simp
  · obtain ⟨hs, hw⟩ := i.released heq
    rw [hs]
    exact ⟨fun t ht => absurd ht List.not_mem_nil, (List.length_filter_le _ _).trans hw⟩

theorem arrive_step (h : r.conds.phase t = none ∧ r.conds.stat t = .ready) :
    r.step (.arrive t) = { (pthreadBarrierWait t r).2 with
        arrivals := r.arrivals + 1, number := update r.number t r.arrivals } ∧
      r.answer (.arrive t) = (pthreadBarrierWait t r).1.map fun e => (t, e) := by
  rw [Run.step, Run.answer, Run.exec, if_pos h]
  exact ⟨rfl, rfl⟩

theorem arrive_other (h : ¬(r.conds.phase t = none ∧ r.conds.stat t = .ready)) :
    r.step (.arrive t) = r ∧ r.answer (.arrive t) = none := by
  rw [Run.step, Run.answer, Run.exec, if_neg h]
  exact ⟨rfl, rfl⟩

/-- The last arrival of the round. -/
theorem wait_last (hc : r.count = 1) :
    pthreadBarrierWait t r = (some 0, { r with count := 0, conds := r.conds.broadcast () }) := by
  rw [pthreadBarrierWait, hc]
  rfl

theorem wait_more (hc : 1 < r.count) : pthreadBarrierWait t r =
    (none, { r with count := r.count - 1, conds := r.conds.enter t () rtWaitingForever }) := by
  have hzero : r.count ≠ 0 := by omega
  have hone : r.count - 1 ≠ 0 := by omega
  rw [pthreadBarrierWait, if_neg hzero]
  exact if_neg hone

/-- An arrival that is not the last waits. -/
theorem Inv.arrive (i : Inv size r) (ht : r.conds.phase t = none) (hc : 1 < r.count) :
    Inv size { r with
      count := r.count - 1
      conds := r.conds.enter t () rtWaitingForever
      arrivals := r.arrivals + 1
      number := update r.number t r.arrivals } := by
  have hcount := i.count
  have hlt : r.arrivals < size := by omega
  refine ⟨i.conds.enter ht () _, hlt, ?_, fun u time hu => ?_, fun u hu => ?_, fun _ => i.value hlt,
    fun _ u hu => ?_, fun _ u e hu => ?_, fun heq => ?_⟩
  · dsimp only
    omega
  · obtain rfl | hut := eq_or_ne u t
    · simp only [Conds.enter, update_self, Option.some.injEq, Phase.window.injEq] at hu
      exact hu.2.symm
    · simp only [Conds.enter, update_of_ne hut] at hu
      exact i.forever u time hu
  · obtain rfl | hut := eq_or_ne u t
    · simp only [update_self]
      exact Nat.lt_succ_self _
    · simp only [Conds.enter, update_of_ne hut] at hu ⊢
      exact (i.number u hu).trans (Nat.lt_succ_self _)
  · obtain rfl | hut := eq_or_ne u t
    · simp [Conds.enter] at hu
    · simp only [Conds.enter, update_of_ne hut] at hu
      exact i.taking hlt u hu
  · obtain rfl | hut := eq_or_ne u t
    · simp [Conds.enter] at hu
    · simp only [Conds.enter, update_of_ne hut] at hu
      exact i.locking hlt u e hu
  · dsimp only at heq
    omega

/-- The last arrival wakes the others. -/
theorem Inv.last (i : Inv size r) (ht : r.conds.phase t = none) (hc : r.count = 1)
    (hw : (r.conds.window ()).length ≤ 1) :
    Inv size { r with
      count := 0
      conds := r.conds.broadcast ()
      arrivals := r.arrivals + 1
      number := update r.number t r.arrivals } := by
  have hcount := i.count
  have heq : r.arrivals + 1 = size := by omega
  obtain ⟨hconds, hs, hv, -⟩ := i.conds.broadcast ()
  refine ⟨hconds, heq.le, ?_, i.forever, fun u hu => ?_, fun hlt => ?_, fun hlt => ?_, fun hlt => ?_,
    fun _ => ⟨?_, ?_⟩⟩
  · dsimp only
    omega
  · have hut : u ≠ t := by
      rintro rfl
      exact hu ht
    simp only [update_of_ne hut]
    exact (i.number u hu).trans (Nat.lt_succ_self _)
  · exact absurd heq hlt.ne
  · exact absurd heq hlt.ne
  · exact absurd heq hlt.ne
  · dsimp only
    rw [hs, update_self]
  · dsimp only
    rw [hv, update_self]
    exact hw.trans (le_max_right _ _)

/-- A thread that leaves the window, with what else the invariant says of the phases. -/
theorem Inv.phases (i : Inv size r) {k : Unit} {timeout : ℤ} (ph : Phase Unit)
    (ht : r.conds.phase t = some (.window k timeout)) (hph : ∀ k' time, ph ≠ .window k' time) :
    (∀ u time, update r.conds.phase t (some ph) u = some (.window () time) →
      time = rtWaitingForever) ∧
    ∀ u, update r.conds.phase t (some ph) u ≠ none → r.number u < r.arrivals := by
  refine ⟨fun u time hu => ?_, fun u hu => ?_⟩
  · obtain rfl | hut := eq_or_ne u t
    · rw [update_self, Option.some.injEq] at hu
      exact absurd hu (hph () time)
    · rw [update_of_ne hut] at hu
      exact i.forever u time hu
  · obtain rfl | hut := eq_or_ne u t
    · exact i.number u (ht ▸ Option.some_ne_none _)
    · rw [update_of_ne hut] at hu
      exact i.number u hu

/-- A waiting thread calls `rt_sem_take`: after the round it finds a count, before it there is none. -/
theorem Inv.take (i : Inv size r) {conds : Conds Unit τ} (h : r.conds.take t = some conds) :
    Inv size { r with conds := conds } := by
  have hconds := i.conds.take h
  obtain ⟨k, timeout, ht, hmem, hwindow, htaken⟩ := i.conds.taken h
  obtain rfl : k = () := rfl
  have hpos : 0 < (r.conds.window ()).length := List.length_pos_of_mem hmem
  have hlen : (conds.window ()).length = (r.conds.window ()).length - 1 := by
    rw [hwindow, update_self, List.length_erase_of_mem hmem]
  cases htaken with
  | counted hv value suspended error phase =>
    have heq : r.arrivals = size := i.le.antisymm (not_lt.1 fun hlt => hv.ne' (i.value hlt))
    obtain ⟨hs, hw⟩ := i.released heq
    obtain ⟨hforever, hnumber⟩ := i.phases (.locking () rtEok) ht (by simp)
    rw [← phase] at hforever hnumber
    refine ⟨hconds, i.le, i.count, hforever, hnumber, fun hlt => absurd heq hlt.ne,
      fun hlt => absurd heq hlt.ne, fun hlt => absurd heq hlt.ne, fun _ => ⟨suspended ▸ hs, ?_⟩⟩
    dsimp only
    rw [hlen, value, update_self]
    exact Nat.sub_le_sub_right hw 1
  | refused hv htime value suspended error phase =>
    exact absurd (htime.symm.trans (i.forever t timeout ht)) (by decide)
  | @slept l hv value perm suspended error phase =>
    have hlt : r.arrivals < size := by
      refine lt_of_le_of_ne i.le fun heq => ?_
      have hw := (i.released heq).2
      exact absurd hv (hpos.trans_le hw).ne'
    obtain ⟨hforever, hnumber⟩ := i.phases (.taking ()) ht (by simp)
    rw [← phase] at hforever hnumber
    have hlist : ∀ u, u ∈ conds.suspended () ↔ u = t ∨ u ∈ r.conds.suspended () := by
      intro u
      rw [suspended, update_self, perm.mem_iff, List.mem_cons]
    refine ⟨hconds, i.le, i.count, hforever, hnumber, fun _ => ?_, fun _ u hu => (hlist u).2 ?_,
      fun _ u e hu => ?_, fun heq => absurd heq hlt.ne⟩
    · dsimp only
      rw [value, hv]
    · obtain rfl | hut := eq_or_ne u t
      · exact Or.inl rfl
      · dsimp only at hu
        rw [phase, update_of_ne hut] at hu
        exact Or.inr (i.taking hlt u hu)
    · dsimp only at hu
      rw [phase] at hu
      obtain rfl | hut := eq_or_ne u t
      · simp at hu
      · rw [update_of_ne hut] at hu
        exact i.locking hlt u e hu

/-- Nobody is woken before the end of the round. -/
theorem Inv.wake (i : Inv size r) {conds : Conds Unit τ} (h : r.conds.wake t = some conds) :
    Inv size { r with conds := conds } := by
  have hconds := i.conds.wake h
  obtain ⟨k, ht, hr, rfl⟩ := Conds.wake_cases h
  have heq : r.arrivals = size := by
    refine i.le.antisymm (not_lt.1 fun hlt => ?_)
    exact i.conds.waiting.not_mem hr () (i.taking hlt t ht)
  refine ⟨hconds, i.le, i.count, fun u time hu => ?_, fun u hu => ?_, fun hlt => absurd heq hlt.ne,
    fun hlt => absurd heq hlt.ne, fun hlt => absurd heq hlt.ne, i.released⟩
  · obtain rfl | hut := eq_or_ne u t
    · simp at hu
    · simp only [update_of_ne hut] at hu
      exact i.forever u time hu
  · obtain rfl | hut := eq_or_ne u t
    · exact i.number u (ht ▸ Option.some_ne_none _)
    · simp only [update_of_ne hut] at hu
      exact i.number u hu

/-- A call returns after the end of its round. -/
theorem Inv.leave (i : Inv size r) {k : Unit} {e : ℤ} (ht : r.conds.phase t = some (.locking k e)) :
    Inv size { r with conds := r.conds.leave t } ∧ r.arrivals = size ∧ r.number t < r.arrivals := by
  have heq : r.arrivals = size :=
    i.le.antisymm (not_lt.1 fun hlt => i.locking hlt t e ht)
  refine ⟨⟨i.conds.leave ht, i.le, i.count, fun u time hu => ?_, fun u hu => ?_,
    fun hlt => absurd heq hlt.ne, fun hlt => absurd heq hlt.ne, fun hlt => absurd heq hlt.ne,
    i.released⟩, heq, i.number t (ht ▸ Option.some_ne_none _)⟩
  · obtain rfl | hut := eq_or_ne u t
    · simp [Conds.leave] at hu
    · simp only [Conds.leave, update_of_ne hut] at hu
      exact i.forever u time hu
  · obtain rfl | hut := eq_or_ne u t
    · simp [Conds.leave] at hu
    · simp only [Conds.leave, update_of_ne hut] at hu
      exact i.number u hu

/-- A step in the first round keeps the invariant, and a call that returns has completed its round. -/
theorem Inv.step (i : Inv size r) (h : InFirstRound r op) : Inv size (r.step op) ∧
    ∀ u e, r.answer op = some (u, e) → e = 0 ∧ (r.step op).number u < (r.step op).complete size := by
  cases op with
  | arrive t =>
    by_cases hfree : r.conds.phase t = none ∧ r.conds.stat t = .ready
    · obtain ⟨hne, hw⟩ := h hfree
      obtain ⟨hstep, hanswer⟩ := arrive_step hfree
      rw [hstep, hanswer]
      obtain hone | hmore : r.count = 1 ∨ 1 < r.count := by omega
      · have i' := i.last hfree.1 hone (hw hone)
        rw [wait_last hone]
        refine ⟨i', fun u e he => ?_⟩
        obtain ⟨rfl, rfl⟩ := Prod.mk.inj (Option.some.inj he)
        have hcount := i.count
        have heq : r.arrivals + 1 = size := by omega
        refine ⟨rfl, ?_⟩
        rw [complete_of_eq heq]
        dsimp only
        rw [update_self]
        omega
      · rw [wait_more hmore]
        exact ⟨i.arrive hfree.1 hmore, fun u e he => absurd he (Option.some_ne_none _).symm⟩
    · obtain ⟨hstep, hanswer⟩ := arrive_other hfree
      rw [hstep, hanswer]
      exact ⟨i, fun u e he => absurd he (Option.some_ne_none _).symm⟩
  | take t =>
    rw [Run.step, Run.answer, Run.exec]
    cases hc : r.conds.take t with
    | none => exact ⟨i, fun u e he => absurd he (Option.some_ne_none _).symm⟩
    | some conds => exact ⟨i.take hc, fun u e he => absurd he (Option.some_ne_none _).symm⟩
  | wake t =>
    rw [Run.step, Run.answer, Run.exec]
    cases hc : r.conds.wake t with
    | none => exact ⟨i, fun u e he => absurd he (Option.some_ne_none _).symm⟩
    | some conds => exact ⟨i.wake hc, fun u e he => absurd he (Option.some_ne_none _).symm⟩
  | leave t =>
    rw [Run.step, Run.answer, Run.exec]
    split
    next k e hk =>
      obtain ⟨i', heq, hnumber⟩ := i.leave hk
      refine ⟨i', fun u e' he => ?_⟩
      obtain ⟨rfl, rfl⟩ := Prod.mk.inj (Option.some.inj he)
      have hcomplete : Run.complete { r with conds := r.conds.leave t } size = size :=
        complete_of_eq heq
      exact ⟨rfl, (hnumber.trans_eq heq).trans_eq hcomplete.symm⟩
    next => exact ⟨i, fun u e he => absurd he (Option.some_ne_none _).symm⟩

/-- An arrival after the first round is refused, and with two threads in front of the semaphore the last
    arrival wakes one of them only. -/
theorem Inv.overrun (i : Inv size r) (h : ¬ InFirstRound r op) : ¬ Behaves size r op := by
  cases op with
  | arrive t =>
    obtain ⟨hfree, hbad⟩ := Classical.not_imp.1 h
    obtain ⟨hstep, hanswer⟩ := arrive_step hfree
    intro hb
    by_cases hzero : r.count = 0
    · have hrefused : pthreadBarrierWait t r = (some einval, r) := if_pos hzero
      rw [hrefused] at hanswer
      exact absurd (hb.result t einval hanswer) (by decide)
    · obtain ⟨hone, hw⟩ := Classical.not_imp.1 fun hone => hbad ⟨hzero, hone⟩
      have hcount := i.count
      have heq : r.arrivals + 1 = size := by omega
      have hwindow := hb.window
      rw [hstep, wait_last hone] at hwindow
      obtain ⟨-, -, hv, -⟩ := i.conds.broadcast ()
      have hvalue : (r.conds.broadcast ()).value () = 1 := by
        rw [hv, update_self, i.value (by omega)]
        rfl
      have hall : ((r.conds.broadcast ()).window ()).filter (fun u =>
          update r.number t r.arrivals u < Run.complete { r with
            count := 0
            conds := r.conds.broadcast ()
            arrivals := r.arrivals + 1
            number := update r.number t r.arrivals } size) = r.conds.window () := by
        rw [complete_of_eq heq]
        refine List.filter_eq_self.2 fun u hu => ?_
        obtain ⟨time, hph⟩ := (i.conds.mem () u).1 hu
        have hut : u ≠ t := by
          rintro rfl
          exact absurd (hfree.1.symm.trans hph) (Option.some_ne_none _).symm
        have hnumber := i.number u (hph ▸ Option.some_ne_none _)
        rw [update_of_ne hut]
        exact decide_eq_true (by omega)
      dsimp only at hwindow
      rw [hall, hvalue] at hwindow
      exact hw hwindow
  | take t => exact absurd trivial h
  | wake t => exact absurd trivial h
  | leave t => exact absurd trivial h

theorem behaves_iff (i : Inv size r) : Behaves size r op ↔ InFirstRound r op := by
  refine ⟨fun hb => by_contra fun h => i.overrun h hb, fun h => ?_⟩
  obtain ⟨i', hanswer⟩ := i.step h
  obtain ⟨hs, hw⟩ := i'.sound
  exact ⟨fun t e he => (hanswer t e he).1, fun t e he => (hanswer t e he).2, hs, hw⟩

theorem init_inv (h : r.Init size) : Inv size r := by
  refine ⟨h.conds.inv, ?_, ?_, fun t time ht => absurd ht (h.conds.out _ _),
    fun t ht => absurd (h.conds.phase t) ht, fun _ => h.conds.value (),
    fun _ t ht => absurd ht (h.conds.out _ _), fun _ t e => h.conds.out _ _,
    fun _ => ⟨h.conds.suspended (), ?_⟩⟩
  · rw [h.arrivals]
    exact Nat.zero_le _
  · rw [h.count, h.arrivals, Nat.sub_zero]
  · rw [h.conds.window]
    exact Nat.zero_le _

/-- CORRECT: a barrier does what it should for its first round, as long as not more than one thread has
    not come to the semaphore when the round ends, and for nothing else. -/
theorem behaves_of_firstRound (hr : r.Init size) (ops : List (Op τ)) :
    Along Run.step (Behaves size) r ops ↔ Along Run.step InFirstRound r ops :=
  Along.iff (I := Inv size) (fun _ _ i => behaves_iff i) (fun _ _ i h => (i.step h).1) ops
    (init_inv hr)

/-- Threads that are ready, and a barrier for `size` of them. -/
def start (size : ℕ) : Run ℕ where
  conds :=
    { os := { tasks := ⟨fun t => ⟨.ready, t, t, 0, 0, 0, 0, false, false, true⟩, fun _ => []⟩
              sem := fun _ => Sem.rtSemInit 0 .fifo }
      window := fun _ => []
      phase := fun _ => none }
  count := size
  arrivals := 0
  number _ := 0

theorem start_init (size : ℕ) : (start size).Init size :=
  ⟨⟨fun _ => rfl, fun _ => rfl, fun _ => rfl, fun _ => rfl⟩, rfl, rfl⟩

/-- The third of three threads finds one suspended, and one about to be. -/
theorem behaves_of_firstRound_three : Along Run.step (Behaves 3) (start 3)
    [.arrive 0, .take 0, .arrive 1, .arrive 2, .take 1, .wake 0, .leave 1, .leave 0] :=
  (behaves_of_firstRound (start_init 3) _).2 (by decide +kernel)

/-- The first thread of the second round is refused. -/
theorem not_behaves_of_second_round : ¬ Along Run.step (Behaves 2) (start 2)
    [.arrive 0, .take 0, .arrive 1, .wake 0, .leave 0, .arrive 0] := by
  rintro ⟨-, -, -, -, -, h, -⟩
  exact absurd (h.result 0 einval (by decide +kernel)) (by decide)

end Steps

end EasyCore.Pthreads.Barrier
