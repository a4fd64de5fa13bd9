import EasyCore.Kernel.TimerOrder

/-! The thread of the soft timers (`rt_thread_timer_entry` in `src/timer.c`). Before each check it waits
    for the first timer of its list. `RT_TICK_MAX` says that there is none, and a delay of no ticks
    lasts until the next tick:

        time-out     RT_TICK_MAX     the tick itself    to come        passed
        the thread   is suspended    sleeps too long    sleeps so long  checks at once -/

namespace EasyCore.Timer
open Function EasyCore.Links EasyCore.Kernel EasyCore.Runs

variable {τ : Type*}

/-- `rt_timer_list_next_timeout` -/
def rtTimerListNextTimeout (cfg : Config) (l : TimerList) (s : Timers τ) : ℕ :=
  match s.first cfg l with
  | .head _ => tickMax
  | .item t => (s.timer t).timeoutTick

/-- What the thread does before a check: `rt_thread_suspend` with nothing to wake it up,
    `rt_thread_delay`, or neither. -/
inductive Pause
  | suspend
  | delay (tick : ℕ)
  | none
  deriving DecidableEq

/-- A round of `rt_thread_timer_entry` up to `rt_soft_timer_check`. -/
def rtThreadTimerEntry (cfg : Config) (s : Timers τ) : Pause :=
  let nextTimeout := rtTimerListNextTimeout cfg .soft s
  if nextTimeout = tickMax then .suspend
  else if sub32 nextTimeout s.tick < tickMax / 2 then .delay (sub32 nextTimeout s.tick)
  else .none

/-- `rt_thread_sleep` for `tick` ticks at the tick `now`: the timer of the thread is due, and found to
    be so by `rt_timer_check`, with the `n`-th tick from then on. -/
def SleepDue (now tick n : ℕ) : Prop := sub32 ((now + n) % 2 ^ 32) ((now + tick) % 2 ^ 32) < tickMax / 2

/-- The pause lasts `n` ticks; a check comes with each tick, and not before. -/
def Pause.Lasts (now : ℕ) : Pause → ℕ → Prop
  | .suspend, _ => False
  | .delay tick, n => 0 < n ∧ SleepDue now tick n ∧ ∀ m, 0 < m → m < n → ¬ SleepDue now tick m
  | .none, n => n = 0

/-- The ticks until the time-out of a timer, modulo the word. -/
def Timers.left (s : Timers τ) (t : τ) : ℕ := sub32 (s.timer t).timeoutTick s.tick

/-- The ticks until the time-out of a timer, none if it has passed. -/
def Timers.remaining (s : Timers τ) (t : τ) : ℕ := if s.left t < tickMax / 2 then s.left t else 0

/-- The thread is suspended only if there is no timer, and never sleeps beyond a time-out. -/
structure Punctual (cfg : Config) (s : Timers τ) (R : ℕ → TimerList → List τ) : Prop where
  suspend : rtThreadTimerEntry cfg s = .suspend → R cfg.bottom .soft = []
  sleep : ∀ n, (rtThreadTimerEntry cfg s).Lasts s.tick n → ∀ t ∈ R cfg.bottom .soft, n ≤ s.remaining t

/-- The time-out of the first timer is not `RT_TICK_MAX`; it has passed, or it is to come and no other
    timer comes before. -/
def FirstOk (s : Timers τ) : List τ → Prop
  | [] => True
  | t :: b => (s.timer t).timeoutTick ≠ tickMax
      ∧ (tickMax / 2 ≤ s.left t ∨ 0 < s.left t ∧ ∀ u ∈ b, s.left t ≤ s.remaining u)

variable {cfg : Config} {s : Timers τ} {R : ℕ → TimerList → List τ} {t : τ} {b : List τ}
  {now tick n : ℕ}

theorem sleepDue_iff (hn : n < tickMax / 2) (htick : tick < tickMax / 2) :
    SleepDue now tick n ↔ tick ≤ n := by
  unfold SleepDue sub32
  unfold tickMax at hn htick ⊢
  omega

/-- A delay lasts as many ticks as it says, but one at least. -/
theorem lasts_delay (htick : tick < tickMax / 2) :
    (Pause.delay tick).Lasts now n ↔ n = max tick 1 := by
  have hbound : max tick 1 < tickMax / 2 := by
    unfold tickMax at htick ⊢
    omega
  constructor
  · rintro ⟨hpos, hdue, hfirst⟩
    have hle : n ≤ max tick 1 := by
      by_contra hlt
      exact hfirst (max tick 1) (by omega) (not_le.1 hlt)
        ((sleepDue_iff hbound htick).2 (le_max_left _ _))
    have hge := (sleepDue_iff (hle.trans_lt hbound) htick).1 hdue
    omega
  · rintro rfl
    refine ⟨by omega, (sleepDue_iff hbound htick).2 (le_max_left _ _), fun m hpos hm hdue => ?_⟩
    have hle := (sleepDue_iff (hm.trans hbound) htick).1 hdue
    omega

theorem entry_nil (r : Rows cfg s R) (hR : R cfg.bottom .soft = []) :
    rtThreadTimerEntry cfg s = .suspend := by
  have hfirst : s.first cfg .soft = .head .soft := by
    rw [r.first_eq, hR]
    exact after_nil _
  rw [rtThreadTimerEntry, rtTimerListNextTimeout, hfirst]
  exact if_pos rfl

theorem entry_cons (r : Rows cfg s R) (hR : R cfg.bottom .soft = t :: b) :
    rtThreadTimerEntry cfg s = if (s.timer t).timeoutTick = tickMax then .suspend
      else if s.left t < tickMax / 2 then .delay (s.left t) else .none := by
  have hfirst : s.first cfg .soft = .item t := by
    rw [r.first_eq, hR]
    exact after_cons _ _ _
  rw [rtThreadTimerEntry, rtTimerListNextTimeout, hfirst]
  rfl

/-- CORRECT: the thread is suspended with an empty list only and never sleeps beyond a time-out, exactly
    if the first timer is as it should be. -/
theorem punctual_iff (r : Rows cfg s R) : Punctual cfg s R ↔ FirstOk s (R cfg.bottom .soft) := by
  cases hR : R cfg.bottom .soft with
  | nil =>
    refine iff_of_true ⟨fun _ => hR, fun n _ t ht => ?_⟩ trivial
    rw [hR] at ht
    exact absurd ht List.not_mem_nil
  | cons t b =>
    have hentry := entry_cons r hR
    constructor
    · intro hp
      have hne : (s.timer t).timeoutTick ≠ tickMax := by
        intro heq
        rw [if_pos heq] at hentry
        exact List.cons_ne_nil t b (hR.symm.trans (hp.suspend hentry))
      rw [if_neg hne] at hentry
      refine ⟨hne, ?_⟩
      obtain hpassed | hlt := Nat.lt_or_ge (s.left t) (tickMax / 2) |>.symm
      · exact Or.inl hpassed
      · rw [if_pos hlt] at hentry
        have hsleep := hp.sleep (max (s.left t) 1) (hentry ▸ (lasts_delay hlt).2 rfl)
        rw [hR] at hsleep
        have hself := hsleep t List.mem_cons_self
        rw [Timers.remaining, if_pos hlt] at hself
        refine Or.inr ⟨by omega, fun u hu => ?_⟩
        exact (le_max_left _ _).trans (hsleep u (List.mem_cons_of_mem t hu))
    · rintro ⟨hne, hfirst⟩
      rw [if_neg hne] at hentry
      refine ⟨fun hsuspend => ?_, fun n hlasts u hu => ?_⟩
      · rw [hentry] at hsuspend
        split_ifs at hsuspend
      · rw [hentry] at hlasts
        rw [hR] at hu
        obtain hpassed | ⟨hpos, hleast⟩ := hfirst
        · rw [if_neg (not_lt.2 hpassed)] at hlasts
          rw [show n = 0 from hlasts]
          exact Nat.zero_le _
        · by_cases hlt : s.left t < tickMax / 2
          · rw [if_pos hlt, lasts_delay hlt] at hlasts
            have hn : n = s.left t := by omega
            obtain rfl | hu := List.mem_cons.1 hu
            · rw [hn, Timers.remaining, if_pos hlt]
            · exact hn.le.trans (hleast u hu)
          · rw [if_neg hlt] at hlasts
            rw [show n = 0 from hlasts]
            exact Nat.zero_le _

/-! ### In a list that is in order -/

section Order
variable [DecidableEq τ] {r : Run τ}

omit [DecidableEq τ] in
/-- A timer that is not overdue by half the range of ticks. -/
theorem left_eq (v : OrderInv cfg r R) (ht : t ∈ R cfg.bottom .soft)
    (hago : r.now < r.deadlineOf t + tickMax / 2) :
    (r.now ≤ r.deadlineOf t → r.os.left t = r.deadlineOf t - r.now ∧ r.os.left t < tickMax / 2)
      ∧ (r.deadlineOf t < r.now → tickMax / 2 ≤ r.os.left t) := by
  have hbound := v.bound ht
  rw [Timers.left, v.timeout ht, v.tick, sub32]
  unfold tickMax at hbound hago ⊢
  omega

omit [DecidableEq τ] in
/-- The first timer is as it should be unless it runs out now, or at `RT_TICK_MAX`. -/
theorem firstOk_iff (v : OrderInv cfg r R) (hR : R cfg.bottom .soft = t :: b)
    (hago : ∀ u ∈ R cfg.bottom .soft, r.now < r.deadlineOf u + tickMax / 2) :
    FirstOk r.os (t :: b) ↔ (r.os.timer t).timeoutTick ≠ tickMax ∧ r.deadlineOf t ≠ r.now := by
  have hmem : t ∈ R cfg.bottom .soft := hR ▸ List.mem_cons_self
  obtain ⟨hto, hpast⟩ := left_eq v hmem (hago t hmem)
  refine and_congr_right fun _ => ?_
  obtain hlt | heq | hgt := lt_trichotomy (r.deadlineOf t) r.now
  · exact iff_of_true (Or.inl (hpast hlt)) hlt.ne
  · obtain ⟨hleft, hhalf⟩ := hto heq.ge
    refine iff_of_false ?_ (not_not.2 heq)
    rintro (hpassed | ⟨hpos, -⟩)
    · exact absurd hhalf (not_lt.2 hpassed)
    · omega
  · obtain ⟨hleft, hhalf⟩ := hto hgt.le
    refine iff_of_true (Or.inr ⟨by omega, fun u hu => ?_⟩) hgt.ne'
    have humem : u ∈ R cfg.bottom .soft := hR ▸ List.mem_cons_of_mem t hu
    have hsorted := v.sorted_row le_rfl .soft
    rw [hR, List.pairwise_cons] at hsorted
    have hle := hsorted.1 u hu
    obtain ⟨huto, -⟩ := left_eq v humem (hago u humem)
    obtain ⟨huleft, huhalf⟩ := huto (hgt.le.trans hle)
    rw [Timers.remaining, if_pos huhalf]
    omega

/-- In every run whose starts are in order, while no timer is overdue by half the range of ticks. -/
theorem punctual_of_orderOk (h : Reach (system cfg) (Run.orderOk cfg) r) : ∃ R, Rows cfg r.os R
    ∧ ((∀ u ∈ R cfg.bottom .soft, r.now < r.deadlineOf u + tickMax / 2) →
      (Punctual cfg r.os R ↔ ∀ t ∈ (R cfg.bottom .soft).head?,
        (r.os.timer t).timeoutTick ≠ tickMax ∧ r.deadlineOf t ≠ r.now)) := by
  obtain ⟨R, v⟩ : ∃ R, OrderInv cfg r R := by
    refine Reach.invariant (I := fun r => ∃ R, OrderInv cfg r R) (fun r hi => ⟨_, .init hi⟩) ?_ h
    rintro r op r' ⟨R, v⟩ hok ⟨fuel, hs⟩
    exact v.step hok hs
  refine ⟨R, v.rows, fun hago => (punctual_iff v.rows).trans ?_⟩
  cases hR : R cfg.bottom .soft with
  | nil => exact iff_of_true trivial nofun
  | cons t b =>
    rw [firstOk_iff v hR (hR ▸ hago)]
    simp

end Order

/-- One-shot timers of the soft list, shortly before the tick wraps around. -/
def lateBoard : Run (Fin 8) :=
  { board (2 ^ 32 - 6) with
    os := { (board (2 ^ 32 - 6)).os with timer := fun t => ⟨false, false, true, t, 0⟩ } }

theorem lateBoard_init : lateBoard.Init :=
  ⟨(board_init (2 ^ 32 - 6)).1, fun _ => rfl, (board_init (2 ^ 32 - 6)).2.2⟩

/-- A timer that runs out in two ticks. -/
theorem punctual_iff_late : ∃ r, replay (Run.execIf (Run.orderOk oneRow) oneRow 9) lateBoard
      [.start 3, .tick 1] = some r
    ∧ ∃ R, Punctual oneRow r.os R ∧ rtThreadTimerEntry oneRow r.os = .delay 2 := by
  have hrun : (replay (Run.execIf (Run.orderOk oneRow) oneRow 9) lateBoard [.start 3, .tick 1]).map
      (fun r => (r.os.first oneRow .soft, (r.os.timer 3).timeoutTick, r.os.left 3,
        decide (∀ u, (r.os.timer u).list = .soft ∧ ((r.pending u).isSome → u = 3)),
        rtThreadTimerEntry oneRow r.os))
      = some (.item 3, 2 ^ 32 - 3, 2, true, .delay 2) := by decide +kernel
  obtain ⟨r, hr, he⟩ := Option.map_eq_some_iff.1 hrun
  simp only [Prod.mk.injEq, decide_eq_true_eq] at he
  obtain ⟨hfirst, hto, hleft, honly, hentry⟩ := he
  obtain ⟨R, v⟩ := ordered_of_opOk (Reach.of_replay (fun _ _ _ h => execIf_step h) _
    (Reach.init lateBoard_init) hr)
  obtain ⟨b, hR⟩ := v.rows.first_item hfirst
  refine ⟨r, hr, R, (punctual_iff v.rows).2 ?_, hentry⟩
  rw [hR]
  refine ⟨?_, Or.inr ⟨?_, fun u hu => ?_⟩⟩
  · rw [hto]
    decide
  · rw [hleft]
    decide
  · have hmem : u ∈ R oneRow.bottom (r.os.timer u).list := by
      rw [(honly u).1, hR]
      exact List.mem_cons_of_mem _ hu
    rw [(honly u).2 ((v.linked u).1 hmem), Timers.remaining, hleft]
    decide

/-- INCORRECT for a time-out at `RT_TICK_MAX`: the thread is suspended with a timer in its list. -/
theorem suspended_at_tickMax : ¬ ∀ r : Run (Fin 8), Reachable (system oneRow) r →
    ∀ R, Rows oneRow r.os R → Punctual oneRow r.os R := by
  intro hall
  have hrun : (replay (Run.execIf (Run.orderOk oneRow) oneRow 9) lateBoard [.start 5]).map
      (fun r => (r.os.first oneRow .soft, rtThreadTimerEntry oneRow r.os))
      = some (.item 5, .suspend) := by decide +kernel
  obtain ⟨r, hr, he⟩ := Option.map_eq_some_iff.1 hrun
  obtain ⟨hfirst, hentry⟩ := Prod.mk.inj he
  have hreach := Reach.of_replay (fun _ _ _ h => execIf_step h) _ (Reach.init lateBoard_init) hr
  obtain ⟨R, v⟩ := ordered_of_opOk hreach
  obtain ⟨b, hR⟩ := v.rows.first_item hfirst
  have hnil := (hall r (hreach.mono fun _ _ _ => trivial) R v.rows).suspend hentry
  exact List.cons_ne_nil 5 b (hR.symm.trans hnil)

end EasyCore.Timer
