import EasyCore.Kernel.MemPool

/-! The waiters of memory pools. `rt_mp_alloc` counts them and `rt_mp_free` relies on the count, but
    `rt_thread_timeout`, which takes a thread off whatever list it is on, knows nothing of it. -/

namespace EasyCore.MemPool
open Function EasyCore.Links EasyCore.Kernel EasyCore.Ipc EasyCore.Runs

variable {κ τ : Type*}

/-- The count is that of the threads on the suspend list, and none is taken from an empty list. -/
structure Counted (r : Run κ τ) : Prop where
  count : ∀ k, (r.os.mp k).suspendThreadCount = (r.os.tasks.suspended k).length
  crashed : r.crashed ≠ some .noWaiter

/-- No allocation times out, and the count does not run over. -/
def Run.waitOk (r : Run κ τ) : Op κ τ → Prop
  | .expire t => ∀ k, t ∉ r.os.tasks.suspended k
  | .alloc _ k time => (r.os.mp k).blockFreeCount = 0 → time ≠ 0 →
      (r.os.mp k).suspendThreadCount + 1 < 2 ^ 32
  | _ => True

/-- The invariant. -/
structure WaitInv (r : Run κ τ) : Prop extends Counted r where
  waiting : Waiting r.os.tasks r.pc
  small : ∀ k, (r.os.mp k).suspendThreadCount < 2 ^ 32

section Steps
variable [DecidableEq κ] [DecidableEq τ] {r r' : Run κ τ} {c : Option τ} {t : τ} {k : κ}
  {size blockSize : κ → RtSize} {s : State κ τ}

omit [DecidableEq κ] [DecidableEq τ] in
theorem init_waitInv (h : r.Init size blockSize) : WaitInv r := by
  obtain ⟨hs, hm, hp, -, hc⟩ := h
  have hcount : ∀ k, (r.os.mp k).suspendThreadCount = 0 := by
    intro k
    obtain ⟨junk, hk⟩ := hm k
    rw [hk]
    rfl
  refine ⟨⟨fun k => ?_, by simp [hc]⟩, .empty hs hp, fun k => ?_⟩
  · rw [hcount, hs, List.length_nil]
  · rw [hcount]
    decide

omit [DecidableEq τ] in
/-- Taking a block changes nothing about the waiters. -/
theorem mpTake_fields : (mpTake k s).2.tasks = s.tasks ∧
    (∀ k', ((mpTake k s).2.mp k').suspendThreadCount = (s.mp k').suspendThreadCount) ∧
    ((∃ block, (mpTake k s).1 = .block block) ∨ (mpTake k s).1 = .crash .emptyFreeList) := by
  unfold mpTake
  dsimp only
  split
  · exact ⟨rfl, fun _ => rfl, .inr rfl⟩
  next i _ =>
    split
    · exact ⟨rfl, fun _ => rfl, .inr rfl⟩
    · refine ⟨rfl, fun k' => ?_, .inl ⟨i, rfl⟩⟩
      by_cases hk : k' = k
      · subst hk
        simp [State.setMp]
      · simp [State.setMp, hk]

/-- A call takes a block, or crashes. -/
theorem WaitInv.take (v : WaitInv r) (hc : r.crashed = none)
    (w : Waiting r.os.tasks (setPc r.pc c none)) : WaitInv (r.after c k (mpTake k r.os)) := by
  obtain ⟨ht, hm, ⟨block, ho⟩ | ho⟩ := @mpTake_fields _ _ _ k r.os
  all_goals
    rcases hs : mpTake k r.os with ⟨o, s⟩
    rw [hs] at ht hm ho
    dsimp only at ht hm ho
    subst ho
  · refine ⟨⟨fun k' => ?_, by simp [Run.after, hc]⟩, ?_, fun k' => ?_⟩
    · simp only [Run.after, hm, ht]
      exact v.count k'
    · simp only [Run.after, ht]
      exact w
    · simp only [Run.after, hm]
      exact v.small k'
  · refine ⟨⟨fun k' => ?_, by simp [Run.after]⟩, ?_, fun k' => ?_⟩
    · simp only [Run.after, hm, ht]
      exact v.count k'
    · simp only [Run.after, ht]
      exact v.waiting
    · simp only [Run.after, hm]
      exact v.small k'

/-- A call returns without a block. -/
theorem WaitInv.leave (v : WaitInv r) (w : Waiting r.os.tasks (setPc r.pc c none)) :
    WaitInv (r.after c k (.null, r.os)) :=
  ⟨⟨v.count, v.crashed⟩, w, v.small⟩

omit [DecidableEq κ] in
/-- A caller that is in no call stays in none. -/
theorem setPc_free (h : r.os.tasks.Free r.pc c) : setPc r.pc c none = r.pc := by
  cases c with
  | none => rfl
  | some t =>
    rw [setPc, Option.elim_some, ← h.1, update_eq_self]

/-- A caller goes to sleep. -/
theorem WaitInv.sleep (v : WaitInv r) (hc : r.crashed = none)
    (hf : r.os.tasks.Free r.pc (some t)) (time : ℤ)
    (hlt : (r.os.mp k).suspendThreadCount + 1 < 2 ^ 32) :
    WaitInv (r.after (some t) k (.waits, { r.os.setMp k { r.os.mp k with
      suspendThreadCount := ((r.os.mp k).suspendThreadCount + 1) % 2 ^ 32 } with
      tasks := (r.os.tasks.suspendFront t k).startTimer t time })) := by
  obtain ⟨hs, ht, -⟩ := suspendFront_fields (k := k) hf.2
  obtain ⟨hs', ht', -⟩ := @startTimer_fields _ _ _ (r.os.tasks.suspendFront t k) t time
  have w := v.waiting.block hf.2 (hs'.trans hs) (List.Perm.refl _) (ht'.trans ht)
  refine ⟨⟨fun k' => ?_, by simp [Run.after, hc]⟩, w, fun k' => ?_⟩
  · simp only [Run.after, State.setMp, hs', hs]
    by_cases hk : k' = k
    · subst hk
      rw [update_self, update_self, List.length_cons, ← v.count k']
      exact Nat.mod_eq_of_lt hlt
    · rw [update_of_ne hk, update_of_ne hk]
      exact v.count k'
  · simp only [Run.after, State.setMp]
    by_cases hk : k' = k
    · subst hk
      rw [update_self]
      exact Nat.mod_lt _ (by decide)
    · rw [update_of_ne hk]
      exact v.small k'

/-- A block is freed for the first waiter. -/
theorem WaitInv.wake (v : WaitInv r) (hc : r.crashed = none) (w : setPc r.pc c none = r.pc)
    {l : List τ} (hl : r.os.tasks.suspended k = t :: l) {block : ℕ}
    {held : κ → List (ℕ × Option τ)} :
    WaitInv { r.after c k (.freed, { r.os.setMp k { mpLink block (r.os.mp k) with
      suspendThreadCount := sub32 (r.os.mp k).suspendThreadCount 1 } with
      tasks := (r.os.tasks.setError t rtEok).resume t }) with held := held } := by
  have we : Waiting (r.os.tasks.setError t rtEok) r.pc := v.waiting.congr (by simp) (by simp)
  have hm : t ∈ (r.os.tasks.setError t rtEok).suspended k := by simp [hl]
  obtain ⟨hs, -⟩ := resume_fields (we.mem hm).2
  rw [we.without_eq_update hm] at hs
  simp only [setError_fields, hl, List.erase_cons_head] at hs
  have hcount := v.count k
  have hsmall := v.small k
  rw [hl, List.length_cons] at hcount
  have hsub : sub32 (r.os.mp k).suspendThreadCount 1 = l.length := by
    rw [sub32]
    omega
  refine ⟨⟨fun k' => ?_, by simp [Run.after, hc]⟩, ?_, fun k' => ?_⟩
  · simp only [Run.after, State.setMp, hs]
    by_cases hk : k' = k
    · subst hk
      rw [update_self, update_self, hsub]
    · rw [update_of_ne hk, update_of_ne hk]
      exact v.count k'
  · simp only [Run.after, w]
    exact we.resume hm
  · simp only [Run.after, State.setMp]
    by_cases hk : k' = k
    · subst hk
      rw [update_self, hsub]
      dsimp only
      omega
    · rw [update_of_ne hk]
      exact v.small k'

/-- A block is freed and nobody waits. -/
theorem WaitInv.link (v : WaitInv r) (hc : r.crashed = none) (w : setPc r.pc c none = r.pc)
    {block : ℕ} {held : κ → List (ℕ × Option τ)} :
    WaitInv { r.after c k (.freed, r.os.setMp k (mpLink block (r.os.mp k))) with
      held := held } := by
  have hmp : ∀ k', (update r.os.mp k (mpLink block (r.os.mp k)) k').suspendThreadCount =
      (r.os.mp k').suspendThreadCount := by
    intro k'
    by_cases hk : k' = k
    · subst hk
      rw [update_self]
      rfl
    · rw [update_of_ne hk]
  refine ⟨⟨fun k' => ?_, by simp [Run.after, hc]⟩, ?_, fun k' => ?_⟩
  · simp only [Run.after, State.setMp, hmp]
    exact v.count k'
  · simp only [Run.after, w]
    exact v.waiting
  · simp only [Run.after, State.setMp, hmp]
    exact v.small k'

/-- One step keeps the invariant. -/
theorem WaitInv.step (v : WaitInv r) {op : Op κ τ} {e : Option Outcome} (hok : r.waitOk op)
    (h : r.exec op = some (e, r')) : WaitInv r' := by
  unfold Run.exec at h
  obtain ⟨hcr, h⟩ := Option.ite_none_left_eq_some.1 h
  have hc : r.crashed = none := not_not.1 hcr
  cases op with
  | alloc c k time =>
    obtain ⟨hf, h⟩ := Option.ite_none_right_eq_some.1 h
    obtain ⟨o, ho, h⟩ := Option.map_eq_some_iff.1 h
    obtain ⟨-, rfl⟩ := Prod.mk.inj h
    have hpc := setPc_free hf
    unfold rtMpAlloc at ho
    dsimp only at ho
    split at ho
    next hn =>
      obtain rfl := Option.some.inj ho
      exact v.take hc (hpc.symm ▸ v.waiting)
    next hn =>
      split at ho
      · obtain rfl := Option.some.inj ho
        exact v.leave (hpc.symm ▸ v.waiting)
      next htime =>
        obtain ⟨t, rfl, rfl⟩ := Option.map_eq_some_iff.1 ho
        exact v.sleep hc hf time (hok (not_not.1 hn) htime)
  | goOn t =>
    obtain ⟨k, hk, h⟩ := Option.bind_eq_some_iff.1 h
    obtain ⟨hr, h⟩ := Option.ite_none_right_eq_some.1 h
    obtain ⟨-, rfl⟩ := Prod.mk.inj (Option.some.inj h)
    have hw : Waiting r.os.tasks (setPc r.pc (some t) none) := v.waiting.leave hr
    unfold mpGoOn
    split
    · exact v.leave hw
    · exact v.take hc hw
  | free c k block =>
    obtain ⟨⟨hf, -⟩, h⟩ := Option.ite_none_right_eq_some.1 h
    obtain ⟨o, ho, h⟩ := Option.map_eq_some_iff.1 h
    obtain ⟨-, rfl⟩ := Prod.mk.inj h
    have hpc := setPc_free hf
    unfold rtMpFree at ho
    obtain ⟨-, ho⟩ := Option.ite_none_right_eq_some.1 ho
    dsimp only at ho
    split at ho
    next hpos =>
      -- the count says that somebody waits
      have hne : r.os.tasks.suspended k ≠ [] := by
        rw [← List.length_pos_iff, ← v.count k]
        exact hpos
      obtain ⟨t, l, hl⟩ := List.exists_cons_of_ne_nil hne
      rw [hl] at ho
      obtain rfl := Option.some.inj ho
      exact v.wake hc hpc hl
    next hpos =>
      obtain rfl := Option.some.inj ho
      exact v.link hc hpc
  | expire t =>
    obtain ⟨tasks, ht, h⟩ := Option.map_eq_some_iff.1 h
    obtain ⟨-, rfl⟩ := Prod.mk.inj h
    obtain ⟨-, hs, -⟩ := expire_fields ht
    have hsame : tasks.suspended = r.os.tasks.suspended := by
      rw [hs]
      funext k
      exact without_eq (hok k)
    refine ⟨⟨fun k => ?_, v.crashed⟩, v.waiting.expire ht, v.small⟩
    simp only [hsame]
    exact v.count k

/-- A step without a time-out, and before the count runs over. -/
def Run.execNoTimeout (r : Run κ τ) : Op κ τ → Option (Run κ τ)
  | .expire _ => none
  | .alloc c k time =>
    if (r.os.mp k).suspendThreadCount + 1 < 2 ^ 32 then
      (r.exec (.alloc c k time)).map Prod.snd
    else none
  | op => (r.exec op).map Prod.snd

theorem execNoTimeout_step {op : Op κ τ} (h : r.execNoTimeout op = some r') :
    r.waitOk op ∧ (system size blockSize).step r op r' := by
  cases op with
  | alloc c k time =>
    obtain ⟨hlt, h⟩ := Option.ite_none_right_eq_some.1 h
    exact ⟨fun _ _ => hlt, (exec_step h).2⟩
  | goOn t => exact exec_step h
  | free c k block => exact exec_step h
  | expire t => exact absurd h (by simp [Run.execNoTimeout])

/-- CORRECT: in every run in which no allocation times out. -/
theorem counted_of_waitOk (h : Reach (system size blockSize) Run.waitOk r) : Counted r := by
  refine WaitInv.toCounted (h.invariant (fun _ hi => init_waitInv hi) ?_)
  rintro r op r' hi hok ⟨e, hs⟩
  exact hi.step hok hs

end Steps

/-- Two threads wait for one block; the one that came last gets it, and then the other. -/
theorem counted_of_waitOk_board :
    ∃ r, replay Run.execNoTimeout (board 8) [.alloc (some 3) () 0, .alloc (some 4) () (-1),
        .alloc (some 5) () 9, .free (some 3) () 0, .goOn 5, .free none () 0] = some r ∧
      Counted r := by
  obtain ⟨r, hr⟩ := Option.isSome_iff_exists.1 (show (replay Run.execNoTimeout (board 8)
    [.alloc (some 3) () 0, .alloc (some 4) () (-1), .alloc (some 5) () 9, .free (some 3) () 0,
      .goOn 5, .free none () 0]).isSome = true by decide +kernel)
  exact ⟨r, hr, counted_of_waitOk (Reach.of_replay (fun _ _ _ h => execNoTimeout_step h) _
    (Reach.init (board_init 8)) hr)⟩

/-- After a time-out the next free takes a waiter from an empty list. -/
theorem timeout_miscounts : ¬∀ r, Reachable (system (fun _ : Unit => 8) fun _ => 4)
    (r : Run Unit ℕ) → Counted r := by
  intro hall
  have hrun : (replay (fun r op => (Run.exec r op).map Prod.snd) (board 8)
      [.alloc (some 3) () 0, .alloc (some 4) () 5, .expire 4, .goOn 4,
        .free (some 3) () 0]).map Run.crashed = some (some .noWaiter) := by decide +kernel
  obtain ⟨r, hr, hc⟩ := Option.map_eq_some_iff.1 hrun
  exact (hall r (Reach.of_replay (fun _ _ _ h => exec_step h) _ (Reach.init (board_init 8))
    hr)).crashed hc

end EasyCore.MemPool
