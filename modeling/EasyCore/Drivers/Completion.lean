import EasyCore.Kernel.Waiting
import EasyCore.Lib.Runs

/-! The completion object (`components/drivers/src/completion.c`). A wait finds the flag set and returns, or
    it is suspended, and clears the flag when it goes on; in between others can look at the flag. -/

namespace EasyCore.Completion
open Function Kernel Runs Ipc Links

/-- The threads and `struct rt_completion`; the flag is set for `RT_COMPLETED`. -/
structure State (τ : Type*) where
  tasks : Tasks Unit τ
  flag : Bool

variable {τ : Type*}

section Calls
variable [DecidableEq τ]

/-- `rt_completion_wait` up to its `rt_schedule`: the result, if the caller does not wait. Only one thread
    can be suspended, and an interrupt handler cannot. -/
def rtCompletionWait (c : Option τ) (timeout : ℤ) (s : State τ) : Option (Option ℤ × State τ) :=
  if s.flag then some (some rtEok, s)
  else if s.tasks.suspended () ≠ [] then none
  else if timeout = 0 then some (some (-rtEtimeout), s)
  else c.map fun thread =>
    (none, { s with tasks := (s.tasks.setError thread rtEok).sleep thread () .fifo timeout })

/-- The end of `rt_completion_wait`, after its `rt_schedule`. -/
def rtCompletionWake (thread : τ) (s : State τ) : ℤ × State τ :=
  (s.tasks.error thread, { s with flag := false })

/-- `rt_completion_done`. Interrupts are enabled at its test; a done that comes in between leaves nobody
    suspended, and the flag is then set once more. -/
def rtCompletionDone (s : State τ) : State τ :=
  if s.flag then s else { tasks := s.tasks.ipcWake (), flag := true }

end Calls

/-! ### Runs -/

/-- What happens: calls by a thread or an interrupt handler, a thread going on after the `rt_schedule` of
    its wait, and the timer of a thread. -/
inductive Op (τ : Type*)
  | wait (c : Option τ) (timeout : ℤ)
  | done (c : Option τ)
  | goOn (t : τ)
  | expire (t : τ)

/-- The state, the threads that are inside a wait, and how often `rt_completion_done` has been called and a
    wait has returned `RT_EOK`. -/
structure Run (τ : Type*) where
  os : State τ
  pc : τ → Option Unit
  dones : ℕ
  returned : ℕ

section Exec
variable [DecidableEq τ]

def Run.exec (r : Run τ) : Op τ → Option (Run τ)
  | .wait c timeout =>
    if r.os.tasks.Free r.pc c then
      (rtCompletionWait c timeout r.os).map fun res =>
        { r with
          os := res.2
          pc := match c, res.1 with
            | some t, none => update r.pc t (some ())
            | _, _ => r.pc
          returned := if res.1 = some rtEok then r.returned + 1 else r.returned }
    else none
  | .done c =>
    if r.os.tasks.Free r.pc c then
      some { r with os := rtCompletionDone r.os, dones := r.dones + 1 }
    else none
  | .goOn t =>
    if r.pc t = some () ∧ r.os.tasks.stat t = .ready then
      some { r with
        os := (rtCompletionWake t r.os).2
        pc := update r.pc t none
        returned := if (rtCompletionWake t r.os).1 = rtEok then r.returned + 1 else r.returned }
    else none
  | .expire t => (r.os.tasks.expire t).map fun tasks => { r with os := { r.os with tasks := tasks } }

/-- One step; a call that is not made, or that fails an assertion, changes nothing. -/
def Run.step (r : Run τ) (op : Op τ) : Run τ := (r.exec op).getD r

/-! ### One done, one wait -/

/-- A wait that has been released and has still to return. -/
def Run.Released (r : Run τ) (t : τ) : Prop := Granted r.os.tasks r.pc () t

instance (r : Run τ) (t : τ) : Decidable (r.Released t) := inferInstanceAs (Decidable (Granted _ _ _ _))

/-- Each done has made one wait return, or has released one that has still to return, or is kept by the
    flag for the next. -/
def Run.Counts (r : Run τ) : Prop :=
  ∃ released : List τ, released.Nodup ∧ (∀ t, t ∈ released ↔ r.Released t) ∧
    r.dones = r.returned + released.length + if r.os.flag ∧ released = [] then 1 else 0

/-- No done is lost or counted twice, and with no thread in a wait the flag is set exactly for a done that
    no wait has returned yet. -/
structure Balanced (r : Run τ) : Prop where
  counts : r.Counts
  quiet : (∀ t, r.pc t = none) → r.dones = r.returned + if r.os.flag then 1 else 0

/-- The flag is clear for a done or a wait, a done finds nobody else released, and a wait that has timed
    out does not go on while the flag keeps a done. -/
def Sound (r : Run τ) : Op τ → Prop
  | .wait c _ => r.os.tasks.Free r.pc c → r.os.flag = false
  | .done c => r.os.tasks.Free r.pc c →
    r.os.flag = false ∧ (r.os.tasks.suspended () = [] → ∀ t, ¬ r.Released t)
  | .goOn t => r.pc t = some () → r.os.tasks.stat t = .ready → r.os.tasks.error t ≠ rtEok →
    r.os.flag = true → ∃ u, r.Released u
  | .expire _ => True

end Exec

section Steps
variable [DecidableEq τ] {r : Run τ} {c : Option τ} {t : τ} {op : Op τ} {timeout : ℤ}

/-- With the flag set a wait returns and leaves it set. -/
theorem wait_flag (hfree : r.os.tasks.Free r.pc c) (hflag : r.os.flag = true) :
    r.step (.wait c timeout) = { r with returned := r.returned + 1 } := by
  simp only [Run.step, Run.exec, if_pos hfree, rtCompletionWait, if_pos hflag, Option.map_some,
    Option.getD_some, if_true]

/-- With the flag clear the caller goes to sleep, or nothing happens. -/
theorem wait_cases (c : Option τ) (timeout : ℤ) (hflag : r.os.flag = false) : r.step (.wait c timeout) = r ∨
    ∃ t, c = some t ∧ r.os.tasks.Free r.pc (some t) ∧ r.os.tasks.suspended () = [] ∧
      r.step (.wait c timeout) = { r with
        os := { r.os with tasks := (r.os.tasks.setError t rtEok).sleep t () .fifo timeout }
        pc := update r.pc t (some ()) } := by
  by_cases hfree : r.os.tasks.Free r.pc c
  · by_cases hlist : r.os.tasks.suspended () = []
    · simp only [Run.step, Run.exec, if_pos hfree, rtCompletionWait, hflag, Bool.false_eq_true, if_false,
        hlist, ne_eq, not_true_eq_false]
      split_ifs with htime
      · left
        cases c with
        | none => rfl
        | some t => rfl
      · cases c with
        | none => exact Or.inl rfl
        | some t => exact Or.inr ⟨t, rfl, hfree, trivial, rfl⟩
    · left
      simp only [Run.step, Run.exec, if_pos hfree, rtCompletionWait, hflag, Bool.false_eq_true, if_false,
        ne_eq, hlist, not_false_eq_true, if_true, Option.map_none, Option.getD_none]
  · left
    simp only [Run.step, Run.exec, if_neg hfree, Option.getD_none]

theorem done_free (hfree : r.os.tasks.Free r.pc c) :
    r.step (.done c) = { r with os := rtCompletionDone r.os, dones := r.dones + 1 } := by
  simp only [Run.step, Run.exec, if_pos hfree, Option.getD_some]

theorem done_busy (hfree : ¬ r.os.tasks.Free r.pc c) : r.step (.done c) = r := by
  simp only [Run.step, Run.exec, if_neg hfree, Option.getD_none]

theorem goOn_ready (hpc : r.pc t = some ()) (hr : r.os.tasks.stat t = .ready) :
    r.step (.goOn t) = { r with
      os := { r.os with flag := false }
      pc := update r.pc t none
      returned := if r.os.tasks.error t = rtEok then r.returned + 1 else r.returned } := by
  rw [Run.step, Run.exec, if_pos ⟨hpc, hr⟩]
  rfl

theorem goOn_other (h : ¬(r.pc t = some () ∧ r.os.tasks.stat t = .ready)) : r.step (.goOn t) = r := by
  rw [Run.step, Run.exec, if_neg h]
  rfl

/-- The invariant. A waiter has no error yet, and there is one at most, with the flag clear. -/
structure Inv (r : Run τ) : Prop where
  waiting : Waiting r.os.tasks r.pc
  calm : ∀ t ∈ r.os.tasks.suspended (), r.os.tasks.error t = rtEok
  lone : (r.os.tasks.suspended ()).length ≤ 1
  idle : r.os.flag = true → r.os.tasks.suspended () = []
  counts : r.Counts

omit [DecidableEq τ] in
theorem Inv.balanced (i : Inv r) : Balanced r where
  counts := i.counts
  quiet hnone := by
    obtain ⟨l, -, hm, hl⟩ := i.counts
    have hnil : l = [] := List.eq_nil_iff_forall_not_mem.2 fun t ht =>
      absurd ((hnone t).symm.trans ((hm t).1 ht).1) (Option.some_ne_none _).symm
    rw [hnil] at hl
    simpa using hl

omit [DecidableEq τ] in
/-- The released threads can be listed in one way only. -/
theorem released_length {l l' : List τ} (hn : l.Nodup) (hn' : l'.Nodup)
    (h : ∀ t, t ∈ l ↔ t ∈ l') : l.length = l'.length :=
  ((List.perm_ext_iff_of_nodup hn hn').2 h).length_eq

/-- The caller goes to sleep. -/
theorem Inv.sleep (i : Inv r) (hfree : r.os.tasks.Free r.pc (some t)) (hflag : r.os.flag = false)
    (hlist : r.os.tasks.suspended () = []) :
    Inv { r with
      os := { r.os with tasks := (r.os.tasks.setError t rtEok).sleep t () .fifo timeout }
      pc := update r.pc t (some ()) } := by
  have w : Waiting (r.os.tasks.setError t rtEok) r.pc := i.waiting.congr (by simp) (by simp)
  have hr : (r.os.tasks.setError t rtEok).stat t = .ready := by simpa using hfree.2
  obtain ⟨hs, -, he, -⟩ := sleep_fields (k := ()) hr .fifo timeout
  simp only [setError_fields] at hs he
  have hone : ((r.os.tasks.setError t rtEok).sleep t () .fifo timeout).suspended () = [t] := by
    rw [hs, update_self, hlist]
    rfl
  refine ⟨w.sleep hr _ _, fun u hu => ?_, ?_, fun hset => ?_, ?_⟩
  · dsimp only at hu ⊢
    rw [hone, List.mem_singleton] at hu
    rw [hu, he, update_self]
  · dsimp only
    rw [hone]
    exact le_rfl
  · exact absurd (hflag.symm.trans hset) (by decide)
  · obtain ⟨l, hn, hm, hl⟩ := i.counts
    refine ⟨l, hn, fun u => (hm u).trans (granted_block hfree.1 hs (insertWaiter_perm _ _ _ _)
      fun v hv => ?_).symm, hl⟩
    rw [he, update_of_ne hv]

/-- A wait goes on. -/
theorem Inv.goOn (i : Inv r) (hpc : r.pc t = some ()) (hr : r.os.tasks.stat t = .ready)
    (hs : r.os.tasks.error t ≠ rtEok → r.os.flag = true → ∃ u, r.Released u) :
    Inv { r with
      os := { r.os with flag := false }
      pc := update r.pc t none
      returned := if r.os.tasks.error t = rtEok then r.returned + 1 else r.returned } := by
  refine ⟨i.waiting.leave hr, i.calm, i.lone, fun hset => absurd hset (by simp), ?_⟩
  obtain ⟨l, hn, hm, hl⟩ := i.counts
  by_cases he : r.os.tasks.error t = rtEok
  · have ht : t ∈ l := (hm t).2 ⟨hpc, i.waiting.not_mem hr (), he⟩
    refine ⟨l.erase t, hn.erase t, fun u => ?_, ?_⟩
    · rw [hn.mem_erase_iff, hm, and_comm]
      exact granted_leave.symm
    · have hlen := List.length_erase_add_one ht
      have hne : l ≠ [] := List.ne_nil_of_mem ht
      simp only [he, if_true, hne, and_false, if_false, Bool.false_eq_true, false_and] at hl ⊢
      omega
  · have ht : t ∉ l := fun ht => he ((hm t).1 ht).2.2
    refine ⟨l, hn, fun u => ?_, ?_⟩
    · rw [hm]
      refine (iff_self_and.2 fun hu => ?_).trans granted_leave.symm
      rintro rfl
      exact he hu.2.2
    · have hb : ¬(r.os.flag = true ∧ l = []) := fun ⟨hset, hnil⟩ => by
        obtain ⟨u, hu⟩ := hs he hset
        exact absurd ((hm u).2 hu) (hnil ▸ List.not_mem_nil)
      simp only [he, if_false, hb, Bool.false_eq_true, false_and] at hl ⊢
      exact hl

/-- A done releases the waiter, or sets the flag. -/
theorem Inv.done (i : Inv r) (hflag : r.os.flag = false)
    (hs : r.os.tasks.suspended () = [] → ∀ t, ¬ r.Released t) :
    Inv { r with os := rtCompletionDone r.os, dones := r.dones + 1 } := by
  have hdone : rtCompletionDone r.os = { tasks := r.os.tasks.ipcWake (), flag := true } := by
    rw [rtCompletionDone, hflag]
    rfl
  rw [hdone]
  obtain ⟨l, hn, hm, hl⟩ := i.counts
  simp only [hflag, Bool.false_eq_true, false_and, if_false] at hl
  cases hlist : r.os.tasks.suspended () with
  | nil =>
    have hwake : r.os.tasks.ipcWake () = r.os.tasks := by
      rw [Tasks.ipcWake, Tasks.ipcResume, hlist]
      rfl
    rw [hwake]
    have hnil : l = [] := List.eq_nil_iff_forall_not_mem.2 fun t ht => hs hlist t ((hm t).1 ht)
    refine ⟨i.waiting, i.calm, i.lone, fun _ => hlist, l, hn, hm, ?_⟩
    simp only [hnil, List.length_nil, and_self, if_true] at hl ⊢
    omega
  | cons t rest =>
    have hwake : r.os.tasks.ipcWake () = r.os.tasks.resume t := by
      rw [Tasks.ipcWake, Tasks.ipcResume, hlist]
      rfl
    rw [hwake]
    have hrest : rest = [] := by
      have hlone := i.lone
      rw [hlist, List.length_cons] at hlone
      exact List.length_eq_zero_iff.1 (by omega)
    have ht : t ∈ r.os.tasks.suspended () := by
      rw [hlist]
      exact List.mem_cons_self
    obtain ⟨hsusp, -, he, -⟩ := resume_fields (i.waiting.mem ht).2
    have hempty : (r.os.tasks.resume t).suspended () = [] := by
      rw [hsusp, without, hlist, hrest, List.erase_cons_head]
    have hnew : t ∉ l := fun h => ((hm t).1 h).2.1 ht
    refine ⟨i.waiting.resume ht, fun u hu => ?_, ?_, fun _ => hempty, t :: l,
      List.nodup_cons.2 ⟨hnew, hn⟩, fun u => ?_, ?_⟩
    · dsimp only at hu
      rw [hempty] at hu
      exact absurd hu List.not_mem_nil
    · dsimp only
      rw [hempty]
      exact Nat.zero_le _
    · rw [List.mem_cons, hm, or_comm]
      exact ((granted_resume i.waiting ht (i.calm t ht)).trans (or_congr Iff.rfl
        (and_iff_right rfl))).symm
    · simp only [List.length_cons, reduceCtorEq, and_false, if_false]
      omega

theorem Inv.expire {tasks : Tasks Unit τ} (i : Inv r) (h : r.os.tasks.expire t = some tasks) :
    Inv { r with os := { r.os with tasks := tasks } } := by
  obtain ⟨-, hs, -, he, -⟩ := expire_fields h
  have hlen : (tasks.suspended ()).length ≤ (r.os.tasks.suspended ()).length := by
    rw [hs]
    exact List.length_erase_le
  refine ⟨i.waiting.expire h, fun u hu => ?_, hlen.trans i.lone, fun hset => ?_, ?_⟩
  · dsimp only at hu ⊢
    rw [hs] at hu
    have hut : u ≠ t := fun e => not_mem_without (i.waiting.nodup ()) (e ▸ hu)
    rw [mem_without_of_ne hut] at hu
    rw [he, update_of_ne hut]
    exact i.calm u hu
  · refine List.length_eq_zero_iff.1 ?_
    rw [i.idle hset] at hlen
    exact Nat.le_zero.1 hlen
  · obtain ⟨l, hn, hm, hl⟩ := i.counts
    exact ⟨l, hn, fun u => (hm u).trans (granted_expire i.waiting h).symm, hl⟩

/-- One step keeps the invariant. -/
theorem Inv.step (i : Inv r) (hs : Sound r op) : Inv (r.step op) := by
  cases op with
  | wait c timeout =>
    by_cases hfree : r.os.tasks.Free r.pc c
    · obtain hsame | ⟨t, rfl, hfree, hlist, hstep⟩ := wait_cases c timeout (hs hfree)
      · rw [hsame]
        exact i
      · rw [hstep]
        exact i.sleep hfree (hs hfree) hlist
    · rw [Run.step, Run.exec, if_neg hfree]
      exact i
  | done c =>
    by_cases hfree : r.os.tasks.Free r.pc c
    · rw [done_free hfree]
      exact i.done (hs hfree).1 (hs hfree).2
    · rw [done_busy hfree]
      exact i
  | goOn t =>
    by_cases h : r.pc t = some () ∧ r.os.tasks.stat t = .ready
    · rw [goOn_ready h.1 h.2]
      exact i.goOn h.1 h.2 (hs h.1 h.2)
    · rw [goOn_other h]
      exact i
  | expire t =>
    rw [Run.step, Run.exec]
    cases h : r.os.tasks.expire t with
    | none => exact i
    | some tasks => exact i.expire h

omit [DecidableEq τ] in
/-- Counting the same released threads. -/
theorem counts_iff (r' : Run τ) {l : List τ} (hn : l.Nodup) (hm : ∀ t, t ∈ l ↔ r'.Released t) :
    r'.Counts ↔ r'.dones = r'.returned + l.length + if r'.os.flag ∧ l = [] then 1 else 0 := by
  refine ⟨fun ⟨l', hn', hm', hl'⟩ => ?_, fun hl => ⟨l, hn, hm, hl⟩⟩
  have hlen := released_length hn hn' fun t => (hm t).trans (hm' t).symm
  have hnil : l = [] ↔ l' = [] := by
    rw [← List.length_eq_zero_iff, hlen, List.length_eq_zero_iff]
  rw [hl', hlen]
  simp only [hnil]

/-- A step that is not sound loses a done or counts one twice. -/
theorem Inv.miscounts (i : Inv r) (hs : ¬ Sound r op) : ¬ (r.step op).Counts := by
  obtain ⟨l, hn, hm, hl⟩ := i.counts
  cases op with
  | wait c timeout =>
    obtain ⟨hfree, hflag⟩ := Classical.not_imp.1 hs
    rw [Bool.not_eq_false] at hflag
    rw [wait_flag hfree hflag]
    intro h
    have hl' := (counts_iff { r with returned := r.returned + 1 } hn hm).1 h
    dsimp only at hl'
    omega
  | done c =>
    obtain ⟨hfree, hbad⟩ := Classical.not_imp.1 hs
    rw [done_free hfree]
    by_cases hflag : r.os.flag = true
    · have hdone : rtCompletionDone r.os = r.os := by
        rw [rtCompletionDone, if_pos hflag]
      rw [hdone]
      intro h
      have hl' := (counts_iff { r with dones := r.dones + 1 } hn hm).1 h
      dsimp only at hl'
      omega
    · -- the flag is set beside a released thread, which clears it
      rw [Bool.not_eq_true] at hflag
      obtain ⟨hlist, hbad⟩ := Classical.not_imp.1 fun h => hbad ⟨hflag, h⟩
      obtain ⟨t, ht⟩ := not_forall.1 hbad
      have hne : l ≠ [] := List.ne_nil_of_mem ((hm t).2 (not_not.1 ht))
      have hdone : rtCompletionDone r.os = { r.os with flag := true } := by
        rw [rtCompletionDone, hflag, Tasks.ipcWake, Tasks.ipcResume, hlist]
        rfl
      rw [hdone]
      intro h
      have hl' := (counts_iff { r with os := { r.os with flag := true }, dones := r.dones + 1 }
        hn hm).1 h
      simp only [hflag, hne, and_false, if_false] at hl' hl
      omega
  | goOn t =>
    obtain ⟨hpc, hbad⟩ := Classical.not_imp.1 hs
    obtain ⟨hr, hbad⟩ := Classical.not_imp.1 hbad
    obtain ⟨he, hbad⟩ := Classical.not_imp.1 hbad
    obtain ⟨hflag, hbad⟩ := Classical.not_imp.1 hbad
    have hnil : l = [] := List.eq_nil_iff_forall_not_mem.2 fun u hu => hbad ⟨u, (hm u).1 hu⟩
    have hm' : ∀ u, u ∈ l ↔ (r.step (.goOn t)).Released u := by
      intro u
      rw [goOn_ready hpc hr, hm]
      refine (iff_self_and.2 fun hu => ?_).trans granted_leave.symm
      rintro rfl
      exact he hu.2.2
    rw [counts_iff _ hn hm', goOn_ready hpc hr]
    intro h
    simp only [hnil, hflag, he, if_false, Bool.false_eq_true, false_and, and_self, if_true] at h hl
    omega
  | expire t => exact absurd trivial hs

/-- A completion object with nobody waiting and the flag clear: `rt_completion_init`. -/
structure Run.Init (r : Run τ) : Prop where
  flag : r.os.flag = false
  suspended : r.os.tasks.suspended () = []
  pc : ∀ t, r.pc t = none
  dones : r.dones = 0
  returned : r.returned = 0

omit [DecidableEq τ] in
theorem init_inv (h : r.Init) : Inv r where
  waiting := Waiting.empty (fun _ => h.suspended) h.pc
  calm t ht := absurd (h.suspended ▸ ht) List.not_mem_nil
  lone := by
    rw [h.suspended]
    exact Nat.zero_le _
  idle _ := h.suspended
  counts := by
    refine ⟨[], List.nodup_nil, fun t => ?_, ?_⟩
    · refine iff_of_false List.not_mem_nil fun ht => ?_
      exact absurd ((h.pc t).symm.trans ht.1) (Option.some_ne_none _).symm
    · rw [h.dones, h.returned, h.flag]
      rfl

/-- CORRECT: one done, one wait, in every run whose steps are sound, and in no other. -/
theorem balanced_of_sound (hr : r.Init) (ops : List (Op τ)) :
    Along Run.step (fun r op => Balanced (r.step op)) r ops ↔ Along Run.step Sound r ops := by
  refine Along.iff (fun r op i => ?_) (fun r op i hs => Inv.step i hs) ops (init_inv hr)
  exact ⟨fun hb => by_contra fun hs => i.miscounts hs hb.counts, fun hs => (i.step hs).balanced⟩

/-- Threads that are ready, and a completion object. -/
def start : Run ℕ where
  os := { tasks := ⟨fun t => ⟨.ready, t, t, 0, 0, 0, 0, false, false, true⟩, fun _ => []⟩
          flag := false }
  pc _ := none
  dones := 0
  returned := 0

theorem start_init : start.Init := ⟨rfl, rfl, fun _ => rfl, rfl, rfl⟩

/-- Two rounds with a done after the wait, and one with a time-out. -/
theorem balanced_of_sound_rounds : Along Run.step (fun r op => Balanced (r.step op)) start
    [.wait (some 3) (-1), .done none, .goOn 3, .wait (some 4) 5, .expire 4, .goOn 4,
      .wait (some 4) 5, .done (some 3), .goOn 4] := by
  refine (balanced_of_sound start_init _).2 ⟨fun _ => rfl, fun _ => ⟨rfl, fun h => ?_⟩, fun _ _ h => ?_,
    fun _ => rfl, trivial, fun _ _ _ h => ?_, fun _ => rfl, fun _ => ⟨rfl, fun h => ?_⟩,
    fun _ _ h => ?_, trivial⟩
  · exact absurd h (by decide +kernel)
  · exact absurd (by decide +kernel) h
  · exact absurd h (by decide +kernel)
  · exact absurd h (by decide +kernel)
  · exact absurd (by decide +kernel) h

/-- A done before the wait: two waits return. -/
theorem not_balanced_of_done_first : ¬ Along Run.step (fun r op => Balanced (r.step op)) start
    [.done none, .wait (some 3) (-1), .wait (some 4) (-1)] := by
  rintro ⟨-, h, -⟩
  have hquiet := h.quiet fun _ => rfl
  exact absurd hquiet (by decide +kernel)

end Steps

end EasyCore.Completion
