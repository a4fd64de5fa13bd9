import EasyCore.Kernel.MutexRun

/-! The priorities of the owners: when inheritance is undone, and when an owner is as urgent as the
    threads that wait for it. -/

namespace EasyCore.Ipc.Mutex
open Function EasyCore.Links EasyCore.Kernel EasyCore.Runs

variable {μ τ : Type*} [DecidableEq μ] [DecidableEq τ] {pmax : ℕ} {r r' : Run μ τ} {op : Op μ τ}
  {t o w : τ} {m : μ} {time : ℤ} {e : Option ℤ}

/-! ### The end of priority inheritance -/

/-- A thread that owns no mutex runs at its own priority. -/
def Undone (r : Run μ τ) : Prop :=
  ∀ t, (∀ m, (r.os.mutex m).owner ≠ some t) → r.os.tasks.prio t = r.os.tasks.initPrio t

/-- The mutex that a thread gives up last is one that it got while at its own priority. -/
def Run.lastOk (r : Run μ τ) : Op μ τ → Prop
  | .release t m => r.givesUp t m → (∀ m', m' ≠ m → (r.os.mutex m').owner ≠ some t) →
      (r.os.mutex m).originalPriority = r.os.tasks.initPrio t
  | _ => True

instance [Fintype μ] (r : Run μ τ) : ∀ op, Decidable (r.lastOk op)
  | .take _ _ _ | .goOn _ | .expire _ => inferInstanceAs (Decidable True)
  | .release _ _ => inferInstanceAs (Decidable (_ → _))

/-- `Base`, with `Undone`. -/
structure UndoneInv (r : Run μ τ) : Prop where
  base : Base r.os r.pc
  undone : Undone r

omit [DecidableEq μ] [DecidableEq τ] in
/-- It is enough that the threads without a mutex had none before and are left alone. -/
theorem Undone.of_same {r' : Run μ τ} (hu : Undone r)
    (h : ∀ t, (∀ m, (r'.os.mutex m).owner ≠ some t) → (∀ m, (r.os.mutex m).owner ≠ some t) ∧
      r'.os.tasks.prio t = r.os.tasks.prio t ∧ r'.os.tasks.initPrio t = r.os.tasks.initPrio t) :
    Undone r' := fun t ht => by
  obtain ⟨hn, hp, hi⟩ := h t ht
  rw [hp, hi]
  exact hu t hn

namespace UndoneInv

/-- A step that stores into `m` another owner than `t`, who owned it, and restores the priority
    of `t`. -/
theorem giveUp (i : UndoneInv r) {r' : Run μ τ} {mutex : RtMutex τ}
    (hown : (r.os.mutex m).owner = some t) (hm : r'.os.mutex = update r.os.mutex m mutex)
    (hp : r'.os.tasks.prio = update r.os.tasks.prio t (r.os.mutex m).originalPriority)
    (hi : r'.os.tasks.initPrio = r.os.tasks.initPrio)
    (hok : (∀ m', m' ≠ m → (r.os.mutex m').owner ≠ some t) →
      (r.os.mutex m).originalPriority = r.os.tasks.initPrio t) : Undone r' := by
  intro u hu
  have hu' : ∀ m', m' ≠ m → (r.os.mutex m').owner ≠ some u := fun m' hne => by
    have := hu m'
    rwa [hm, update_of_ne hne] at this
  rw [hp, hi]
  by_cases hut : u = t
  · subst hut
    rw [update_self]
    exact hok hu'
  · rw [update_of_ne hut]
    refine i.undone u fun m' => ?_
    by_cases hne : m' = m
    · rw [hne, hown]
      exact fun h => hut (Option.some.inj h).symm
    · exact hu' m' hne

theorem step (i : UndoneInv r) (hok : r.lastOk op) (h : r.exec pmax op = some (e, r')) :
    UndoneInv r' := by
  refine ⟨i.base.step h, ?_⟩
  cases op with
  | take t m time =>
    obtain ⟨hf, ⟨ho, -, rfl⟩ | ⟨-, hv, -, rfl⟩ | ⟨-, rfl⟩ | ⟨-, -, o, ho, -, rfl⟩⟩ := take_cases h
    · refine i.undone.of_same fun u hu => ⟨fun m' => ?_, by simp [Run.nest], by simp [Run.nest]⟩
      have := hu m'
      by_cases hm : m' = m
      · subst hm
        simpa [Run.nest] using this
      · simpa [Run.nest, hm] using this
    · refine i.undone.of_same fun u hu =>
        ⟨fun m' => ?_, by simp [Run.acquire], by simp [Run.acquire]⟩
      have := hu m'
      by_cases hm : m' = m
      · subst hm
        simp [i.base.owner_none hv]
      · simpa [Run.acquire, hm] using this
    · exact i.undone.of_same fun u hu => ⟨hu, by simp [Run.fail], by simp [Run.fail]⟩
    · have hr : (boost pmax (r.os.tasks.setError t rtEok) t o).stat t = .ready := by
        simpa using hf.2
      obtain ⟨-, -, -, hp, hi⟩ := sleep_fields (k := m) hr (r.os.mutex m).flag time
      refine i.undone.of_same fun u hu => ⟨hu, ?_, by simp [Run.wait, hi]⟩
      have huo : u ≠ o := fun e => hu m (e ▸ ho)
      simp [Run.wait, hp, huo]
  | goOn t =>
    obtain ⟨m, -, -, -, rfl⟩ := goOn_cases h
    exact i.undone
  | release t m =>
    obtain ⟨hf, ⟨-, -, rfl⟩ | ⟨ho, -, -, rfl⟩ | ⟨hg, -, -, rfl⟩ | ⟨hg, -, w, l, hl, rfl⟩⟩ :=
      release_cases h
    · exact i.undone.of_same fun u hu => ⟨hu, by simp [Run.fail], by simp [Run.fail]⟩
    · refine i.undone.of_same fun u hu => ⟨fun m' => ?_, rfl, rfl⟩
      have := hu m'
      by_cases hm : m' = m
      · subst hm
        simpa [Run.unnest] using this
      · simpa [Run.unnest, hm] using this
    · exact i.giveUp hg.1 rfl (by simp [Run.free]) (by simp [Run.free]) (hok hg)
    · have hw : (restore pmax r.os.tasks t (r.os.mutex m).originalPriority).stat w = .suspend := by
        simpa using (i.base.waiting.mem (hl ▸ List.mem_cons_self)).2
      obtain ⟨-, -, -, hp, hi⟩ := resume_fields hw
      exact i.giveUp hg.1 rfl (by simp [Run.hand, hp]) (by simp [Run.hand, hi]) (hok hg)
  | expire t =>
    obtain ⟨-, tasks, ht, rfl⟩ := expire_cases h
    obtain ⟨-, -, -, -, hp, hi⟩ := expire_fields ht
    exact i.undone.of_same fun u hu => ⟨hu, by simp [hp], by simp [hi]⟩

end UndoneInv

/-- CORRECT: in every run in which each thread gives up last a mutex that it got at its own
    priority. -/
theorem undone_of_lastOk (h : Reach (system pmax) Run.lastOk r) : Undone r := by
  refine UndoneInv.undone (h.invariant (I := UndoneInv) (fun r hi => ⟨init_base hi, ?_⟩) ?_)
  · exact fun t _ => hi.2.2.2.2 t
  · rintro r op r' hi hok ⟨e, hs⟩
    exact hi.step hok hs

/-- Thread 20 holds two mutexes, is boosted for the first one, and gives them up in turn. -/
def nestedRun : List (Op Bool ℕ) :=
  [.take 20 false 0, .take 20 true 0, .take 5 false (-1), .release 20 true, .release 20 false,
    .goOn 5, .release 5 false]

theorem undone_of_lastOk_board : ∃ r,
    replay (Run.execIf Run.lastOk 32) (board Bool .prio) nestedRun = some r ∧ Undone r := by
  obtain ⟨r, hr⟩ := Option.isSome_iff_exists.1
    (show (replay (Run.execIf Run.lastOk 32) (board Bool .prio) nestedRun).isSome = true by
      decide +kernel)
  exact ⟨r, hr, undone_of_lastOk (Reach.of_replay (fun _ _ _ h => execIf_step h) _
    (Reach.init (board_init .prio)) hr)⟩

/-- Thread 20 takes the second mutex while it is boosted to 5 for the first one, which it gives up
    first: it is left at priority 5. -/
theorem boost_remains : ¬∀ r, Reachable (system 32) r → Undone (r : Run Bool ℕ) := by
  intro hall
  have hrun : ((replay (fun r op => (r.exec 32 op).map Prod.snd) (board Bool .prio)
      [.take 20 false 0, .take 5 false (-1), .take 20 true 0, .release 20 false, .goOn 5,
        .release 5 false, .release 20 true]).map fun r => (r.os.tasks.prio 20,
          r.os.tasks.initPrio 20, (r.os.mutex false).owner, (r.os.mutex true).owner)) =
      some (5, 20, none, none) := by
    decide +kernel
  obtain ⟨r, hr, he⟩ := Option.map_eq_some_iff.1 hrun
  simp only [Prod.mk.injEq] at he
  obtain ⟨hp, hi, hf, ht⟩ := he
  have := hall r (Reach.of_replay (fun _ _ _ h => exec_step h) _
    (Reach.init (board_init .prio)) hr) 20 fun m => by cases m <;> simp [hf, ht]
  rw [hp, hi] at this
  exact absurd this (by decide)

/-! ### The priority of the owner -/

/-- The owner is as urgent as every thread that waits. -/
def Inherits (r : Run μ τ) : Prop :=
  ∀ m o u, (r.os.mutex m).owner = some o → u ∈ r.os.tasks.suspended m →
    r.os.tasks.prio o ≤ r.os.tasks.prio u

/-- A mutex that is given up goes to a waiter as urgent as the others, and the priority restored
    is urgent enough for the waiters of the other mutexes of the owner; an owner that is boosted
    waits on no mutex itself whose owner is less urgent than the booster. -/
def Run.urgencyOk (r : Run μ τ) : Op μ τ → Prop
  | .release t m => r.givesUp t m →
      (∀ w ∈ (r.os.tasks.suspended m).head?, ∀ u ∈ (r.os.tasks.suspended m).tail,
        r.os.tasks.prio w ≤ r.os.tasks.prio u) ∧
      ∀ m', m' ≠ m → (r.os.mutex m').owner = some t → ∀ u ∈ r.os.tasks.suspended m',
        (r.os.mutex m).originalPriority ≤ r.os.tasks.prio u
  | .take t m time => time ≠ 0 → ∀ o ∈ (r.os.mutex m).owner, o ≠ t →
      r.os.tasks.prio t < r.os.tasks.prio o → ∀ m', o ∈ r.os.tasks.suspended m' →
        ∀ p ∈ (r.os.mutex m').owner, r.os.tasks.prio p ≤ r.os.tasks.prio t
  | _ => True

instance [Fintype μ] (r : Run μ τ) : ∀ op, Decidable (r.urgencyOk op)
  | .take _ _ _ | .release _ _ => inferInstanceAs (Decidable (_ → _))
  | .goOn _ | .expire _ => inferInstanceAs (Decidable True)

/-- `Base`, with `Inherits`. -/
structure InheritsInv (r : Run μ τ) : Prop where
  base : Base r.os r.pc
  inherits : Inherits r

omit [DecidableEq μ] [DecidableEq τ] in
/-- It is enough that a mutex with waiters keeps its owner and nobody's priority changes. -/
theorem Inherits.of_same {r' : Run μ τ} (hi : Inherits r)
    (hs : ∀ m u, u ∈ r'.os.tasks.suspended m → u ∈ r.os.tasks.suspended m ∧
      (r'.os.mutex m).owner = (r.os.mutex m).owner)
    (hp : r'.os.tasks.prio = r.os.tasks.prio) : Inherits r' := fun m o u ho hu => by
  obtain ⟨hu', ho'⟩ := hs m u hu
  rw [hp]
  exact hi m o u (ho'.symm.trans ho) hu'

namespace InheritsInv

/-- The owner `t` has given `m` up; `mutex` and `tasks` are what the release leaves. -/
theorem giveUp (i : InheritsInv r) {r' : Run μ τ} {mutex : RtMutex τ}
    (hr : r.os.tasks.stat t = .ready) (hm : r'.os.mutex = update r.os.mutex m mutex)
    (hs : ∀ m u, u ∈ r'.os.tasks.suspended m → u ∈ r.os.tasks.suspended m)
    (hp : r'.os.tasks.prio = update r.os.tasks.prio t (r.os.mutex m).originalPriority)
    (hself : ∀ o u, mutex.owner = some o → u ∈ r'.os.tasks.suspended m → o ≠ t ∧
      r.os.tasks.prio o ≤ r.os.tasks.prio u)
    (hok : ∀ m', m' ≠ m → (r.os.mutex m').owner = some t → ∀ u ∈ r.os.tasks.suspended m',
      (r.os.mutex m).originalPriority ≤ r.os.tasks.prio u) : Inherits r' := by
  intro m' o u ho hu
  have hut : u ≠ t := by
    rintro rfl
    exact i.base.waiting.not_mem hr m' (hs m' u hu)
  rw [hm] at ho
  rw [hp, update_of_ne hut]
  by_cases hne : m' = m
  · subst hne
    rw [update_self] at ho
    obtain ⟨hot, hle⟩ := hself o u ho hu
    rwa [update_of_ne hot]
  · rw [update_of_ne hne] at ho
    by_cases hot : o = t
    · subst hot
      rw [update_self]
      exact hok m' hne ho u (hs m' u hu)
    · rw [update_of_ne hot]
      exact i.inherits m' o u ho (hs m' u hu)

theorem wait (i : InheritsInv r) (hf : r.os.tasks.Free r.pc (some t))
    (ho : (r.os.mutex m).owner = some o) (hne : o ≠ t)
    (hok : r.os.tasks.prio t < r.os.tasks.prio o → ∀ m', o ∈ r.os.tasks.suspended m' →
      ∀ p ∈ (r.os.mutex m').owner, r.os.tasks.prio p ≤ r.os.tasks.prio t) :
    Inherits (r.wait pmax t m time o) := by
  have hr : (boost pmax (r.os.tasks.setError t rtEok) t o).stat t = .ready := by simpa using hf.2
  obtain ⟨hs, -, -, hp, -⟩ := sleep_fields (k := m) hr (r.os.mutex m).flag time
  simp only [boost_fields, setError_fields] at hs hp
  have hle : ∀ u, (r.wait pmax t m time o).os.tasks.prio u ≤ r.os.tasks.prio u := fun u => by
    simp only [Run.wait, setTasks_fields, hp]
    by_cases huo : u = o
    · subst huo
      simp
    · rw [update_of_ne huo]
  intro m' p u hpo hmem
  simp only [Run.wait, setTasks_fields] at hpo
  replace hmem : u ∈ r.os.tasks.suspended m' ∨ (m' = m ∧ u = t) := by
    simp only [Run.wait, setTasks_fields, hs] at hmem
    by_cases hm : m' = m
    · subst hm
      rw [update_self, mem_insertWaiter] at hmem
      exact hmem.symm.imp_right fun h => ⟨rfl, h⟩
    · rw [update_of_ne hm] at hmem
      exact .inl hmem
  rcases hmem with hu | ⟨rfl, rfl⟩
  · have hpu := i.inherits m' p u hpo hu
    by_cases huo : u = o
    · subst huo
      -- the owner that is boosted waits itself: the condition is about it
      refine (hle p).trans ?_
      simp only [Run.wait, setTasks_fields, hp, update_self, le_min_iff]
      refine ⟨hpu, ?_⟩
      rcases lt_or_ge (r.os.tasks.prio t) (r.os.tasks.prio u) with hlt | hge
      · exact hok hlt m' hu p hpo
      · exact hpu.trans hge
    · refine (hle p).trans (hpu.trans ?_)
      simp only [Run.wait, setTasks_fields, hp, update_of_ne huo, le_refl]
  · obtain rfl := Option.some.inj (hpo.symm.trans ho)
    simp [Run.wait, hp, hne.symm]

theorem step (i : InheritsInv r) (hok : r.urgencyOk op) (h : r.exec pmax op = some (e, r')) :
    InheritsInv r' := by
  refine ⟨i.base.step h, ?_⟩
  cases op with
  | take t m time =>
    obtain ⟨hf, ⟨ho, -, rfl⟩ | ⟨-, hv, -, rfl⟩ | ⟨-, rfl⟩ | ⟨htime, -, o, ho, hne, rfl⟩⟩ :=
      take_cases h
    · refine i.inherits.of_same (fun m' u hu => ⟨by simpa [Run.nest] using hu, ?_⟩)
        (by simp [Run.nest])
      by_cases hm : m' = m
      · subst hm
        simp [Run.nest]
      · simp [Run.nest, hm]
    · refine i.inherits.of_same (fun m' u hu => ?_) (by simp [Run.acquire])
      have hu' : u ∈ r.os.tasks.suspended m' := by simpa [Run.acquire] using hu
      have hm : m' ≠ m := by
        rintro rfl
        simp [(i.base.free (i.base.owner_none hv)).2.2] at hu'
      exact ⟨hu', by simp [Run.acquire, hm]⟩
    · exact i.inherits.of_same (fun m' u hu => ⟨by simpa [Run.fail] using hu, rfl⟩)
        (by simp [Run.fail])
    · exact i.wait hf ho hne (hok htime o ho hne)
  | goOn t =>
    obtain ⟨m, -, -, -, rfl⟩ := goOn_cases h
    exact i.inherits
  | release t m =>
    obtain ⟨hf, ⟨-, -, rfl⟩ | ⟨ho, -, -, rfl⟩ | ⟨hg, -, hl, rfl⟩ | ⟨hg, -, w, l, hl, rfl⟩⟩ :=
      release_cases h
    · exact i.inherits.of_same (fun m' u hu => ⟨by simpa [Run.fail] using hu, rfl⟩)
        (by simp [Run.fail])
    · refine i.inherits.of_same (fun m' u hu => ⟨hu, ?_⟩) rfl
      by_cases hm : m' = m
      · subst hm
        simp [Run.unnest]
      · simp [Run.unnest, hm]
    · exact i.giveUp hf.2 rfl (fun m' u hu => by simpa [Run.free] using hu) (by simp [Run.free])
        (fun o u ho => absurd ho (by simp)) (hok hg).2
    · have hw : w ∈ r.os.tasks.suspended m := hl ▸ List.mem_cons_self
      have hst : (restore pmax r.os.tasks t (r.os.mutex m).originalPriority).stat w = .suspend := by
        simpa using (i.base.waiting.mem hw).2
      obtain ⟨hs, -, -, hp, -⟩ := resume_fields hst
      simp only [restore_fields] at hs hp
      refine i.giveUp hf.2 rfl (fun m' u hu => ?_) (by simp [Run.hand, hp]) (fun o u ho hu => ?_)
        (hok hg).2
      · simp only [Run.hand, setMutex_fields, setTasks_fields, hs] at hu
        exact List.mem_of_mem_erase hu
      · obtain rfl := Option.some.inj ho
        simp only [Run.hand, setMutex_fields, setTasks_fields, hs, without, hl,
          List.erase_cons_head] at hu
        refine ⟨?_, (hok hg).1 w (by simp [hl]) u (by simpa [hl] using hu)⟩
        rintro rfl
        exact i.base.waiting.not_mem hf.2 m hw
  | expire t =>
    obtain ⟨-, tasks, ht, rfl⟩ := expire_cases h
    obtain ⟨-, hs, -, -, hp, -⟩ := expire_fields ht
    refine i.inherits.of_same (fun m' u hu => ⟨?_, rfl⟩) (by simp [hp])
    simp only [setTasks_fields, hs] at hu
    exact List.mem_of_mem_erase hu

end InheritsInv

/-- CORRECT: in every run in which no hand-over, no restored priority and no boost leaves a waiter
    behind. -/
theorem inherits_of_urgencyOk (h : Reach (system pmax) Run.urgencyOk r) : Inherits r := by
  refine InheritsInv.inherits (h.invariant (I := InheritsInv) (fun r hi => ⟨init_base hi, ?_⟩) ?_)
  · intro m o u _ hu
    simp [hi.1] at hu
  · rintro r op r' hi hok ⟨e, hs⟩
    exact hi.step hok hs

theorem inherits_of_urgencyOk_board : ∃ r,
    replay (Run.execIf Run.urgencyOk 32) (board Unit .prio) handOverRun = some r ∧
      Inherits r := by
  obtain ⟨r, hr⟩ := Option.isSome_iff_exists.1
    (show (replay (Run.execIf Run.urgencyOk 32) (board Unit .prio) handOverRun).isSome = true by
      decide +kernel)
  exact ⟨r, hr, inherits_of_urgencyOk (Reach.of_replay (fun _ _ _ h => execIf_step h) _
    (Reach.init (board_init .prio)) hr)⟩

/-- Threads 10 and 5 wait in this order on a first-come-first-served mutex: thread 10 gets it, and
    5 waits for the less urgent thread. -/
theorem handOver_inverts : ¬∀ r, Reachable (system 32) r → Inherits (r : Run Unit ℕ) := by
  intro hall
  have hrun : ((replay (fun r op => (r.exec 32 op).map Prod.snd) (board Unit .fifo)
      [.take 20 () 0, .take 10 () (-1), .take 5 () (-1), .release 20 ()]).map fun r =>
        ((r.os.mutex ()).owner, r.os.tasks.suspended (), r.os.tasks.prio 10,
          r.os.tasks.prio 5)) = some (some 10, [5], 10, 5) := by
    decide +kernel
  obtain ⟨r, hr, he⟩ := Option.map_eq_some_iff.1 hrun
  simp only [Prod.mk.injEq] at he
  obtain ⟨ho, hs, hp, hp'⟩ := he
  have := hall r (Reach.of_replay (fun _ _ _ h => exec_step h) _
    (Reach.init (board_init .fifo)) hr) () 10 5 ho (by simp [hs])
  rw [hp, hp'] at this
  exact absurd this (by decide)

end EasyCore.Ipc.Mutex
