import EasyCore.Kernel.Mutex

/-! Mutual exclusion: what holds of the mutexes in every run in which no hold counter runs over. -/

namespace EasyCore.Ipc.Mutex
open Function EasyCore.Links EasyCore.Kernel EasyCore.Runs

variable {μ τ : Type*} [DecidableEq μ] [DecidableEq τ] {pmax : ℕ} {r r' : Run μ τ} {op : Op μ τ}
  {t o w : τ} {m : μ} {time : ℤ} {e : Option ℤ}

theorem exec_step (h : (r.exec pmax op).map Prod.snd = some r') :
    True ∧ (system pmax).step r op r' := by
  obtain ⟨⟨e, r₁⟩, hr, rfl⟩ := Option.map_eq_some_iff.1 h
  exact ⟨trivial, e, hr⟩

/-- One flag for all mutexes, and each thread ready at the priority that is its number. -/
def board (μ : Type*) (flag : IpcFlag) : Run μ ℕ where
  os := { tasks := ⟨fun t => ⟨.ready, t, t, 0, 0, 0, 0, false, false, true⟩, fun _ => []⟩
          mutex _ := rtMutexInit flag }
  pc _ := none
  takes _ _ := 0
  releases _ _ := 0

omit [DecidableEq μ] in
theorem board_init (flag : IpcFlag) : (board μ flag).Init :=
  ⟨fun _ => rfl, fun _ => ⟨flag, rfl⟩, fun _ => rfl, fun _ _ => ⟨rfl, rfl⟩, fun _ => rfl⟩

/-! ### Mutual exclusion -/

/-- The holds of `m` that are those of `t`. -/
def Run.holds (r : Run μ τ) (m : μ) (t : τ) : ℕ :=
  if (r.os.mutex m).owner = some t then (r.os.mutex m).hold else 0

/-- The take of `m` by `t` that has been granted but has still to return. -/
def Run.pending (r : Run μ τ) (m : μ) (t : τ) : ℕ :=
  if Granted r.os.tasks r.pc m t then 1 else 0

/-- Mutual exclusion: a mutex is free or has one owner, its hold counts the takes of its owner that
    have been granted and not released, nobody else has any, `RT_EOK` is returned to the owner
    only, and a release by another thread changes nothing but the error number of the caller. -/
structure Exclusive (pmax : ℕ) (r : Run μ τ) : Prop where
  free : ∀ m, (r.os.mutex m).owner = none →
    (r.os.mutex m).value = 1 ∧ (r.os.mutex m).hold = 0
  owned : ∀ m o, (r.os.mutex m).owner = some o →
    (r.os.mutex m).value = 0 ∧ 0 < (r.os.mutex m).hold
  holds : ∀ m t, r.takes m t + r.pending m t = r.releases m t + r.holds m t
  exclusive : ∀ m t u, r.releases m t < r.takes m t → r.releases m u < r.takes m u → t = u
  taken : ∀ t m time r', r.exec pmax (.take t m time) = some (some rtEok, r') →
    (r'.os.mutex m).owner = some t
  returned : ∀ t m r', r.pc t = some m → r.exec pmax (.goOn t) = some (some rtEok, r') →
    (r'.os.mutex m).owner = some t
  refused : ∀ t m e r', (r.os.mutex m).owner ≠ some t →
    r.exec pmax (.release t m) = some (e, r') → e = some (-rtError) ∧ r' = r.fail t (-rtError)

/-- The hold does not run over. -/
def Run.holdOk (r : Run μ τ) : Op μ τ → Prop
  | .take t m _ => (r.os.mutex m).owner = some t → (r.os.mutex m).hold < 255
  | _ => True

instance : Decidable (r.holdOk op) := by
  cases op <;> unfold Run.holdOk <;> infer_instance

/-- The invariant: `Base`, with the holds counted. -/
structure HoldInv (r : Run μ τ) : Prop where
  base : Base r.os r.pc
  hold : ∀ {m o}, (r.os.mutex m).owner = some o →
    0 < (r.os.mutex m).hold ∧ (r.os.mutex m).hold < 256
  holds : ∀ m t, r.takes m t + r.pending m t = r.releases m t + r.holds m t

theorem count_self (n : μ → τ → ℕ) : count n m t (some rtEok) m t = n m t + 1 := by simp [count]

theorem count_of_ne (n : μ → τ → ℕ) {m' : μ} {u : τ} (h : ¬(m' = m ∧ u = t)) :
    count n m t e m' u = n m' u := by
  unfold count
  split
  · by_cases hm : m' = m
    · subst hm
      rw [update_self, update_of_ne fun hu => h ⟨rfl, hu⟩]
    · rw [update_of_ne hm]
  · rfl

/-- No grant is made or given up. -/
theorem pending_congr {r' : Run μ τ}
    (h : ∀ m t, Granted r'.os.tasks r'.pc m t ↔ Granted r.os.tasks r.pc m t) (m : μ) (t : τ) :
    r'.pending m t = r.pending m t := by
  simp only [Run.pending, h]

/-- A step at `m` leaves the holds of the other mutexes alone. -/
theorem holds_of_ne {r' : Run μ τ} {m' : μ} {mutex : RtMutex τ}
    (h : r'.os.mutex = update r.os.mutex m mutex) (hm : m' ≠ m) (u : τ) :
    r'.holds m' u = r.holds m' u := by
  simp only [Run.holds, h, update_of_ne hm]

/-- The holds of `m` after a step that stores into it. -/
theorem holds_self {r' : Run μ τ} {mutex : RtMutex τ}
    (h : r'.os.mutex = update r.os.mutex m mutex) (u : τ) :
    r'.holds m u = if mutex.owner = some u then mutex.hold else 0 := by
  simp only [Run.holds, h, update_self]

namespace HoldInv

theorem nest (i : HoldInv r) (hf : r.os.tasks.Free r.pc (some t))
    (ho : (r.os.mutex m).owner = some t) (hh : (r.os.mutex m).hold < 255) (m' : μ) (u : τ) :
    (r.nest t m).takes m' u + (r.nest t m).pending m' u =
      (r.nest t m).releases m' u + (r.nest t m).holds m' u := by
  have hc := i.holds m' u
  rw [pending_congr (r := r) fun _ _ => granted_setError hf.1 rtEok]
  by_cases hm : m' = m
  · subst hm
    rw [holds_self rfl]
    by_cases hu : u = t
    · subst hu
      simp only [Run.holds, if_pos ho] at hc
      simp only [Run.nest, if_pos ho, count_self, Nat.mod_eq_of_lt (Nat.succ_lt_succ hh)]
      omega
    · have hne : ¬(r.os.mutex m').owner = some u := fun h => hu (Option.some.inj (h.symm.trans ho))
      simp only [Run.holds, if_neg hne] at hc
      simp only [Run.nest, if_neg hne, count_of_ne _ fun h => hu h.2]
      exact hc
  · rw [holds_of_ne rfl hm]
    simp only [Run.nest, count_of_ne _ fun h => hm h.1]
    exact hc

theorem acquire (i : HoldInv r) (hf : r.os.tasks.Free r.pc (some t))
    (ho : (r.os.mutex m).owner = none) (m' : μ) (u : τ) :
    (r.acquire t m).takes m' u + (r.acquire t m).pending m' u =
      (r.acquire t m).releases m' u + (r.acquire t m).holds m' u := by
  have hc := i.holds m' u
  rw [pending_congr (r := r) fun _ _ => granted_setError hf.1 rtEok]
  by_cases hm : m' = m
  · subst hm
    rw [holds_self rfl]
    simp only [Run.holds, ho, reduceCtorEq, if_false] at hc
    by_cases hu : u = t
    · subst hu
      simp only [Run.acquire, if_true, count_self, (i.base.free ho).2.1]
      omega
    · have hne : ¬some t = some u := fun h => hu (Option.some.inj h).symm
      simp only [Run.acquire, if_neg hne, count_of_ne _ fun h => hu h.2]
      exact hc
  · rw [holds_of_ne rfl hm]
    simp only [Run.acquire, count_of_ne _ fun h => hm h.1]
    exact hc

/-- Nothing is taken and nothing released. -/
theorem quiet (i : HoldInv r) (r' : Run μ τ) (hm : r'.os.mutex = r.os.mutex) (ht : r'.takes = r.takes)
    (hr : r'.releases = r.releases)
    (hg : ∀ m t, Granted r'.os.tasks r'.pc m t ↔ Granted r.os.tasks r.pc m t) (m : μ) (u : τ) :
    r'.takes m u + r'.pending m u = r'.releases m u + r'.holds m u := by
  rw [pending_congr hg, ht, hr, Run.holds, hm]
  exact i.holds m u

theorem goOn (i : HoldInv r) (hp : r.pc t = some m) (hr : r.os.tasks.stat t = .ready)
    (m' : μ) (u : τ) :
    (r.return t m).takes m' u + (r.return t m).pending m' u =
      (r.return t m).releases m' u + (r.return t m).holds m' u := by
  have hc := i.holds m' u
  have hoff := i.base.waiting.not_mem hr
  by_cases h : m' = m ∧ u = t
  · obtain ⟨rfl, rfl⟩ := h
    have hng : ¬Granted (r.return u m').os.tasks (r.return u m').pc m' u := fun h =>
      (granted_leave.1 h).2 rfl
    simp only [Run.pending, if_neg hng]
    by_cases he : r.os.tasks.error u = rtEok
    · simp only [Run.pending, if_pos (show Granted _ _ _ _ from ⟨hp, hoff m', he⟩)] at hc
      simp only [Run.return, he, count_self]
      exact hc
    · simp only [Run.pending, if_neg fun h : Granted _ _ _ _ => he h.2.2] at hc
      simp only [Run.return, count, Option.some.injEq, if_neg he]
      exact hc
  · have hg : Granted (r.return t m).os.tasks (r.return t m).pc m' u ↔
        Granted r.os.tasks r.pc m' u := by
      refine granted_leave.trans (and_iff_left_of_imp ?_)
      rintro hu rfl
      exact h ⟨Option.some.inj (hu.1.symm.trans hp), rfl⟩
    simp only [Run.pending, hg]
    simp only [Run.return, count_of_ne _ h]
    exact hc

theorem unnest (i : HoldInv r) (ho : (r.os.mutex m).owner = some t) (m' : μ) (u : τ) :
    (r.unnest t m).takes m' u + (r.unnest t m).pending m' u =
      (r.unnest t m).releases m' u + (r.unnest t m).holds m' u := by
  have hc := i.holds m' u
  have hp : (r.unnest t m).pending m' u = r.pending m' u := rfl
  rw [hp]
  by_cases hm : m' = m
  · subst hm
    rw [holds_self rfl]
    by_cases hu : u = t
    · subst hu
      have hh := i.hold ho
      simp only [Run.holds, if_pos ho] at hc
      simp only [Run.unnest, if_pos ho, count_self]
      omega
    · have hne : ¬(r.os.mutex m').owner = some u := fun h => hu (Option.some.inj (h.symm.trans ho))
      simp only [Run.holds, if_neg hne] at hc
      simp only [Run.unnest, if_neg hne, count_of_ne _ fun h => hu h.2]
      exact hc
  · rw [holds_of_ne rfl hm]
    simp only [Run.unnest, count_of_ne _ fun h => hm h.1]
    exact hc

theorem one_hold (i : HoldInv r) (hg : r.givesUp t m) : (r.os.mutex m).hold = 1 := by
  have := i.hold hg.1
  have := hg.2
  omega

theorem free (i : HoldInv r) (hg : r.givesUp t m) (m' : μ) (u : τ) :
    (r.free pmax t m).takes m' u + (r.free pmax t m).pending m' u =
      (r.free pmax t m).releases m' u + (r.free pmax t m).holds m' u := by
  have hc := i.holds m' u
  rw [pending_congr (r := r) fun _ _ => by simp [Run.free, Granted]]
  by_cases hm : m' = m
  · subst hm
    rw [holds_self rfl]
    by_cases hu : u = t
    · subst hu
      simp only [Run.holds, if_pos hg.1, i.one_hold hg] at hc
      simp only [Run.free, count_self, reduceCtorEq, if_false]
      omega
    · have hne : ¬(r.os.mutex m').owner = some u := fun h =>
        hu (Option.some.inj (h.symm.trans hg.1))
      simp only [Run.holds, if_neg hne] at hc
      simp only [Run.free, reduceCtorEq, if_false, count_of_ne _ fun h => hu h.2]
      exact hc
  · rw [holds_of_ne rfl hm]
    simp only [Run.free, count_of_ne _ fun h => hm h.1]
    exact hc

theorem hand (i : HoldInv r) (hg : r.givesUp t m) (hw : w ∈ r.os.tasks.suspended m) (m' : μ)
    (u : τ) :
    (r.hand pmax t m w).takes m' u + (r.hand pmax t m w).pending m' u =
      (r.hand pmax t m w).releases m' u + (r.hand pmax t m w).holds m' u := by
  have hc := i.holds m' u
  have b : Base (r.os.setTasks (restore pmax r.os.tasks t (r.os.mutex m).originalPriority)) r.pc :=
    i.base.restore _
  have hgr : Granted (r.hand pmax t m w).os.tasks (r.hand pmax t m w).pc m' u ↔
      Granted r.os.tasks r.pc m' u ∨ (m' = m ∧ u = w) := by
    refine (granted_resume b.waiting (by simpa using hw) (b.calm (by simpa using hw))).trans ?_
    simp [Granted]
  have hwt : w ≠ t := by
    rintro rfl
    exact (i.base.taken hg.1).2 hw
  by_cases hm : m' = m
  · subst hm
    rw [holds_self rfl]
    by_cases hu : u = t
    · subst hu
      simp only [Run.holds, if_pos hg.1, i.one_hold hg, Run.pending] at hc
      simp only [Run.pending, hgr, hwt.symm, and_false, or_false]
      simp only [Run.hand, count_self, Option.some.injEq, hwt, if_false]
      omega
    · have hne : ¬(r.os.mutex m').owner = some u := fun h =>
        hu (Option.some.inj (h.symm.trans hg.1))
      simp only [Run.holds, if_neg hne, Run.pending] at hc
      simp only [Run.pending, hgr]
      simp only [Run.hand, count_of_ne _ fun h : m' = m' ∧ u = t => hu h.2, Option.some.injEq]
      by_cases huw : u = w
      · subst huw
        rw [if_neg fun h : Granted _ _ _ _ => h.2.1 hw] at hc
        simp only [and_self, or_true, if_true]
        omega
      · simp only [huw, Ne.symm huw, and_false, or_false, if_false]
        exact hc
  · rw [holds_of_ne rfl hm]
    simp only [Run.pending, hgr, hm, false_and, or_false]
    simp only [Run.hand, count_of_ne _ fun h => hm h.1]
    exact hc

theorem wait (i : HoldInv r) (hf : r.os.tasks.Free r.pc (some t)) (m' : μ) (u : τ) :
    (r.wait pmax t m time o).takes m' u + (r.wait pmax t m time o).pending m' u =
      (r.wait pmax t m time o).releases m' u + (r.wait pmax t m time o).holds m' u := by
  have hr : (boost pmax (r.os.tasks.setError t rtEok) t o).stat t = .ready := by simpa using hf.2
  obtain ⟨hs, -, he, -⟩ := sleep_fields (k := m) hr (r.os.mutex m).flag time
  have hg : ∀ m' u, Granted (r.wait pmax t m time o).os.tasks (r.wait pmax t m time o).pc m' u ↔
      Granted r.os.tasks r.pc m' u := fun m' u => by
    refine granted_block hf.1 (by simpa [Run.wait] using hs) ?_ fun x hx => ?_
    · simpa using insertWaiter_perm (r.os.mutex m).flag _ t (r.os.tasks.suspended m)
    · exact (congrFun he x).trans (by simp [hx])
  exact i.quiet (r.wait pmax t m time o) rfl rfl rfl hg m' u

/-- The hold of a mutex that is stored into stays in its range. -/
theorem store (i : HoldInv r) {mutex : RtMutex τ} (hm : r'.os.mutex = update r.os.mutex m mutex)
    (hh : mutex.owner ≠ none → 0 < mutex.hold ∧ mutex.hold < 256) {m' : μ} {o : τ}
    (ho : (r'.os.mutex m').owner = some o) :
    0 < (r'.os.mutex m').hold ∧ (r'.os.mutex m').hold < 256 := by
  rw [hm] at ho ⊢
  by_cases h : m' = m
  · subst h
    rw [update_self] at ho ⊢
    exact hh (by simp [ho])
  · rw [update_of_ne h] at ho ⊢
    exact i.hold ho

theorem hold_step (i : HoldInv r) (hok : r.holdOk op) (h : r.exec pmax op = some (e, r')) {m : μ}
    {o : τ} (ho : (r'.os.mutex m).owner = some o) :
    0 < (r'.os.mutex m).hold ∧ (r'.os.mutex m).hold < 256 := by
  cases op with
  | take t k time =>
    obtain ⟨-, ⟨hk, -, rfl⟩ | ⟨-, hv, -, rfl⟩ | ⟨-, rfl⟩ | ⟨-, -, o, -, -, rfl⟩⟩ := take_cases h
    · have := hok hk
      exact i.store rfl (fun _ => by dsimp only; omega) ho
    · refine i.store rfl (fun _ => ?_) ho
      simp [(i.base.free (i.base.owner_none hv)).2.1]
    · exact i.hold ho
    · exact i.hold ho
  | goOn t =>
    obtain ⟨k, -, -, -, rfl⟩ := goOn_cases h
    exact i.hold ho
  | release t k =>
    obtain ⟨-, ⟨-, -, rfl⟩ | ⟨hk, hg, -, rfl⟩ | ⟨-, -, -, rfl⟩ | ⟨-, -, w, l, -, rfl⟩⟩ :=
      release_cases h
    · exact i.hold ho
    · have := i.hold hk
      have : ((r.os.mutex k).hold + 255) % 256 ≠ 0 := fun h0 => hg ⟨hk, h0⟩
      exact i.store rfl (fun _ => by dsimp only; omega) ho
    · exact i.store rfl (fun hn => absurd rfl hn) ho
    · exact i.store rfl (fun _ => ⟨Nat.one_pos, Nat.one_lt_succ_succ 254⟩) ho
  | expire t =>
    obtain ⟨-, tasks, -, rfl⟩ := expire_cases h
    exact i.hold ho

/-- One step keeps the invariant. -/
theorem step (i : HoldInv r) (hok : r.holdOk op) (h : r.exec pmax op = some (e, r')) :
    HoldInv r' := by
  refine ⟨i.base.step h, i.hold_step hok h, ?_⟩
  cases op with
  | take t m time =>
    obtain ⟨hf, ⟨ho, -, rfl⟩ | ⟨-, hv, -, rfl⟩ | ⟨-, rfl⟩ | ⟨-, -, o, -, -, rfl⟩⟩ := take_cases h
    · exact i.nest hf ho (hok ho)
    · exact i.acquire hf (i.base.owner_none hv)
    · exact i.quiet _ rfl rfl rfl fun _ _ => granted_setError hf.1 _
    · exact i.wait hf
  | goOn t =>
    obtain ⟨m, hp, hr, -, rfl⟩ := goOn_cases h
    exact i.goOn hp hr
  | release t m =>
    obtain ⟨hf, ⟨-, -, rfl⟩ | ⟨ho, -, -, rfl⟩ | ⟨hg, -, -, rfl⟩ | ⟨hg, -, w, l, hl, rfl⟩⟩ :=
      release_cases h
    · exact i.quiet _ rfl rfl rfl fun _ _ => granted_setError hf.1 _
    · exact i.unnest ho
    · exact i.free hg
    · exact i.hand hg (by simp [hl])
  | expire t =>
    obtain ⟨-, tasks, ht, rfl⟩ := expire_cases h
    exact i.quiet _ rfl rfl rfl fun _ _ => granted_expire i.base.waiting ht

theorem exclusive (i : HoldInv r) : Exclusive pmax r where
  free m ho := ⟨(i.base.free ho).1, (i.base.free ho).2.1⟩
  owned m o ho := ⟨(i.base.taken ho).1, (i.hold ho).1⟩
  holds := i.holds
  exclusive m t u ht hu := by
    have own : ∀ v, r.releases m v < r.takes m v → (r.os.mutex m).owner = some v := by
      intro v hv
      by_contra hn
      have := i.holds m v
      rw [Run.holds, if_neg hn] at this
      omega
    exact Option.some.inj ((own t ht).symm.trans (own u hu))
  taken t m time r' h := by
    obtain ⟨-, ⟨ho, -, rfl⟩ | ⟨-, -, -, rfl⟩ | ⟨he, -⟩ | ⟨-, he, -⟩⟩ := take_cases h
    · simpa [Run.nest] using ho
    · simp [Run.acquire]
    · exact absurd he (by decide)
    · exact absurd he (by simp)
  returned t m r' hp h := by
    obtain ⟨m', hp', hr, he, rfl⟩ := goOn_cases h
    exact i.base.granted ⟨hp, i.base.waiting.not_mem hr m, (Option.some.inj he).symm⟩
  refused t m e r' ho h := by
    obtain ⟨-, ⟨-, he, hr⟩ | ⟨hn, -⟩ | ⟨hg, -⟩ | ⟨hg, -⟩⟩ := release_cases h
    · exact ⟨he, hr⟩
    · exact absurd hn ho
    · exact absurd hg.1 ho
    · exact absurd hg.1 ho

end HoldInv

theorem init_holdInv (h : r.Init) : HoldInv r := by
  have b := init_base h
  obtain ⟨-, hm, hp, hc, -⟩ := h
  have hn : ∀ m, (r.os.mutex m).owner = none := fun m => by
    obtain ⟨flag, hf⟩ := hm m
    rw [hf]
    rfl
  refine ⟨b, fun {m o} ho => absurd ((hn m).symm.trans ho) (by simp), fun m t => ?_⟩
  simp [Run.pending, Run.holds, Granted, hn, hp, hc]

/-- CORRECT: in every run in which no hold runs over, with every order of the steps. -/
theorem exclusive_of_holdOk (h : Reach (system pmax) Run.holdOk r) : Exclusive pmax r := by
  refine HoldInv.exclusive (h.invariant (fun _ hi => init_holdInv hi) ?_)
  rintro r op r' hi hok ⟨e, hs⟩
  exact hi.step hok hs

/-- Run an operation only where it meets a condition. -/
def Run.execIf (ok : Run μ τ → Op μ τ → Prop) [∀ r op, Decidable (ok r op)] (pmax : ℕ)
    (r : Run μ τ) (op : Op μ τ) : Option (Run μ τ) :=
  if ok r op then (r.exec pmax op).map Prod.snd else none

theorem execIf_step {ok : Run μ τ → Op μ τ → Prop} [∀ r op, Decidable (ok r op)]
    (h : r.execIf ok pmax op = some r') : ok r op ∧ (system pmax).step r op r' := by
  obtain ⟨hok, h⟩ := Option.ite_none_right_eq_some.1 h
  exact ⟨hok, (exec_step h).2⟩

/-- Thread 20 takes the mutex twice, 5 waits too long, 10 gets the mutex. -/
def handOverRun : List (Op Unit ℕ) :=
  [.take 20 () 0, .take 20 () 0, .take 5 () 3, .take 10 () (-1), .release 7 (), .expire 5, .goOn 5,
    .release 20 (), .release 20 (), .goOn 10, .release 10 ()]

theorem exclusive_of_holdOk_board : ∃ r,
    replay (Run.execIf Run.holdOk 32) (board Unit .prio) handOverRun = some r ∧
      Exclusive 32 r := by
  obtain ⟨r, hr⟩ := Option.isSome_iff_exists.1
    (show (replay (Run.execIf Run.holdOk 32) (board Unit .prio) handOverRun).isSome = true by
      decide +kernel)
  exact ⟨r, hr, exclusive_of_holdOk (Reach.of_replay (fun _ _ _ h => execIf_step h) _
    (Reach.init (board_init .prio)) hr)⟩

/-- The owner takes the mutex 256 times: its hold is zero then. -/
theorem hold_wraps : ¬∀ r, Reachable (system 32) r → Exclusive 32 (r : Run Unit ℕ) := by
  intro hall
  have hrun : ((replay (fun r op => (r.exec 32 op).map Prod.snd) (board Unit .prio)
      (List.replicate 256 (.take 5 () 0))).map fun r =>
        ((r.os.mutex ()).owner, (r.os.mutex ()).hold)) = some (some 5, 0) := by
    decide +kernel
  obtain ⟨r, hr, he⟩ := Option.map_eq_some_iff.1 hrun
  obtain ⟨ho, hh⟩ := Prod.mk.inj he
  have := ((hall r (Reach.of_replay (fun _ _ _ h => exec_step h) _
    (Reach.init (board_init .prio)) hr)).owned () 5 ho).2
  exact absurd this (by rw [hh]; decide)

end EasyCore.Ipc.Mutex
