import EasyCore.Kernel.Sched
import EasyCore.Kernel.Word
import EasyCore.Lib.Runs

/-! Timers (`src/timer.c`).

    A timer list is a skip list: each of its rows is a doubly linked list, a timer has a list node in
    each row, and the bottom row links all timers that are started. Ticks are 32 bits wide and are
    compared by their difference. -/

namespace EasyCore.Timer
open Function EasyCore.Links EasyCore.Kernel EasyCore.Runs

/-- `RT_TICK_MAX`. -/
def tickMax : ℕ := 2 ^ 32 - 1

/-- `rt_timer_list` and `rt_soft_timer_list`. -/
inductive TimerList
  | hard
  | soft
  deriving DecidableEq

/-- `struct rt_timer`, without its list nodes, its function and its name: the flags
    `RT_TIMER_FLAG_ACTIVATED`, `RT_TIMER_FLAG_PERIODIC` and `RT_TIMER_FLAG_SOFT_TIMER`, and the
    ticks. -/
structure RtTimer where
  activated : Bool
  periodic : Bool
  softTimer : Bool
  initTick : ℕ
  timeoutTick : ℕ

/-- `RT_TIMER_SKIP_LIST_LEVEL` and `RT_TIMER_SKIP_LIST_MASK`. -/
structure Config where
  level : ℕ
  mask : ℕ
  level_pos : 0 < level

/-- The rows (`row i` has the `i`-th heads of the timer lists and the `i`-th nodes of the timers),
    the timers, the insert counter and the tick. -/
structure Timers (τ : Type*) where
  row : ℕ → RtList (Node TimerList τ)
  timer : τ → RtTimer
  randomNr : ℕ
  tick : ℕ

variable {τ : Type*}

/-- The number of the bottom row. -/
def Config.bottom (cfg : Config) : ℕ := cfg.level - 1

/-- The list that a timer belongs to. -/
def RtTimer.list (t : RtTimer) : TimerList := if t.softTimer then .soft else .hard

section Calls
variable [DecidableEq τ]

def Timers.modTimer (s : Timers τ) (t : τ) (f : RtTimer → RtTimer) : Timers τ :=
  { s with timer := update s.timer t (f (s.timer t)) }

def Timers.setActivated (s : Timers τ) (t : τ) (b : Bool) : Timers τ :=
  s.modTimer t fun timer => { timer with activated := b }

/-- `rt_list_isempty` on the node of a timer in the bottom row, negated: the timer is linked. -/
def Timers.linked (s : Timers τ) (cfg : Config) (t : τ) : Bool :=
  !rtListIsempty (s.row cfg.bottom) (.item t)

/-- The first timer of a list. -/
def Timers.first (s : Timers τ) (cfg : Config) (l : TimerList) : Node TimerList τ :=
  (s.row cfg.bottom).next (.head l)

/-- The time-out of a timer has come, and less than half the range of ticks ago. -/
def Timers.due (s : Timers τ) (t : τ) : Bool :=
  sub32 s.tick (s.timer t).timeoutTick < tickMax / 2

/-- `_rt_timer_remove`. -/
def timerRemove (t : τ) (s : Timers τ) : Timers τ :=
  { s with row := fun i => rtListRemove (s.row i) (.item t) }

/-- The search of `rt_timer_start` in one row: the last node after which the timer may come. -/
def rowSearch (s : Timers τ) (l : TimerList) (timeout i : ℕ) :
    ℕ → Node TimerList τ → Option (Node TimerList τ)
  | 0, _ => none
  | fuel + 1, n =>
    if n = (s.row i).prev (.head l) then some n
    else match (s.row i).next n with
      | .head _ => none
      | .item t =>
        if sub32 (s.timer t).timeoutTick timeout = 0 then
          rowSearch s l timeout i fuel ((s.row i).next n)
        else if sub32 (s.timer t).timeoutTick timeout < tickMax / 2 then some n
        else rowSearch s l timeout i fuel ((s.row i).next n)

/-- `row_head[i]`: each row is searched from where the search of the row above it has ended. -/
def rowHead (s : Timers τ) (l : TimerList) (timeout fuel : ℕ) : ℕ → Option (Node TimerList τ)
  | 0 => rowSearch s l timeout 0 fuel (.head l)
  | i + 1 => (rowHead s l timeout fuel i).bind (rowSearch s l timeout (i + 1) fuel)

/-- Insert a timer into the rows above the bottom one, as long as the bits of the counter are
    zero. -/
def insertUp (mask : ℕ) (t : τ) (head : ℕ → Node TimerList τ) :
    ℕ → ℕ → (ℕ → RtList (Node TimerList τ)) → ℕ → RtList (Node TimerList τ)
  | 0, _, row => row
  | i + 1, nr, row =>
    if nr &&& mask = 0 then
      insertUp mask t head i (nr >>> ((mask + 1) >>> 1))
        (update row i (rtListInsertAfter (row i) (head i) (.item t)))
    else row

/-- Insert a timer after the nodes found. -/
def timerInsert (cfg : Config) (t : τ) (head : ℕ → Node TimerList τ) (s : Timers τ) : Timers τ :=
  let nr := (s.randomNr + 1) % 2 ^ 32
  { s with
    row := insertUp cfg.mask t head cfg.bottom nr
      (update s.row cfg.bottom
        (rtListInsertAfter (s.row cfg.bottom) (head cfg.bottom) (.item t)))
    randomNr := nr }

/-- `rt_timer_start`. The period is asserted to be less than half the range of ticks. -/
def rtTimerStart (cfg : Config) (fuel : ℕ) (t : τ) (s : Timers τ) : Option (ℤ × Timers τ) :=
  if (s.timer t).activated then some (-rtError, s)
  else if (s.timer t).initTick < tickMax / 2 then
    let timeout := (s.tick + (s.timer t).initTick) % 2 ^ 32
    let s := s.modTimer t fun timer => { timer with timeoutTick := timeout }
    let head := rowHead s (s.timer t).list timeout fuel
    if (head cfg.bottom).isSome then
      some (rtEok, (timerInsert cfg t (fun i => (head i).getD (.head .hard)) s).setActivated t true)
    else none
  else none

/-- `rt_timer_stop`. -/
def rtTimerStop (t : τ) (s : Timers τ) : ℤ × Timers τ :=
  if (s.timer t).activated then (rtEok, (timerRemove t s).setActivated t false)
  else (-rtError, s)

/-- `rt_timer_detach` and `rt_timer_delete`. -/
def rtTimerDetach (t : τ) (s : Timers τ) : Timers τ := timerRemove t s

/-- The commands of `rt_timer_control` that store something. -/
inductive Cmd
  | setTime (arg : ℕ)
  | setOneshot
  | setPeriodic

/-- `rt_timer_control`. -/
def rtTimerControl (t : τ) (cmd : Cmd) (s : Timers τ) : Timers τ :=
  s.modTimer t fun timer => match cmd with
    | .setTime arg => { timer with initTick := arg % 2 ^ 32 }
    | .setOneshot => { timer with periodic := false }
    | .setPeriodic => { timer with periodic := true }

/-- What a check does when the function of a timer has returned. -/
def timerReturn (cfg : Config) (fuel : ℕ) (t : τ) (s : Timers τ) : Option (Timers τ) :=
  if (s.timer t).periodic ∧ (s.timer t).activated then
    (rtTimerStart cfg fuel t (s.setActivated t false)).map Prod.snd
  else some (s.setActivated t false)

end Calls

/-! ### Runs -/

/-- What happens: the calls, from threads, interrupt handlers or timer functions, the clock, a
    round of `rt_timer_check` up to the call of a timer function, and its return. -/
inductive Op (τ : Type*)
  | start (t : τ)
  | stop (t : τ)
  | control (t : τ) (cmd : Cmd)
  | detach (t : τ)
  | tick (n : ℕ)
  | check
  | return

/-- The state, the timer whose function runs, and what has happened: the time, without a bound, the
    number of starts, the number and the deadline of the last start of each timer, the starts for
    which the function has been called, and when, and those that have been stopped. -/
structure Run (τ : Type*) where
  os : Timers τ
  pc : Option τ
  now : ℕ
  starts : ℕ
  born : τ → Option ℕ
  deadline : ℕ → ℕ
  fired : List (ℕ × ℕ)
  stopped : List ℕ

section Exec
variable [DecidableEq τ]

/-- A timer is started. -/
def Run.started (r : Run τ) (t : τ) : Run τ :=
  { r with
    starts := r.starts + 1
    born := update r.born t (some r.starts)
    deadline := update r.deadline r.starts (r.now + (r.os.timer t).initTick) }

/-- The start of a timer that is still to come to its end. -/
def Run.pending (r : Run τ) (t : τ) : Option ℕ :=
  (r.born t).filter fun n => n ∉ r.fired.map Prod.fst ∧ n ∉ r.stopped

/-- A timer is stopped or detached. -/
def Run.ended (r : Run τ) (t : τ) : Run τ :=
  { r with stopped := (r.pending t).toList ++ r.stopped }

/-- The function of a timer is called. -/
def Run.fire (r : Run τ) (t : τ) : Run τ :=
  { r with fired := (r.pending t).toList.map (fun n => (n, r.now)) ++ r.fired }

/-- One step of a run; the searches of `rt_timer_start` are given `fuel`. -/
def Run.exec (cfg : Config) (fuel : ℕ) (r : Run τ) : Op τ → Option (Run τ)
  | .start t =>
    if (r.os.timer t).activated then some r
    else (rtTimerStart cfg fuel t r.os).map fun o => { r.started t with os := o.2 }
  | .stop t =>
    if (r.os.timer t).activated then some { r.ended t with os := (rtTimerStop t r.os).2 }
    else some r
  | .control t cmd => some { r with os := rtTimerControl t cmd r.os }
  | .detach t => some { r.ended t with os := rtTimerDetach t r.os }
  | .tick n => some { r with os := { r.os with tick := (r.os.tick + n) % 2 ^ 32 }, now := r.now + n }
  | .check =>
    if r.pc = none then match r.os.first cfg .hard with
      | .head _ => some r
      | .item t =>
        if r.os.due t then some { r.fire t with os := timerRemove t r.os, pc := some t }
        else some r
    else none
  | .return => r.pc.bind fun t => (timerReturn cfg fuel t r.os).map fun os =>
      { (if (r.os.timer t).periodic ∧ (r.os.timer t).activated then r.started t else r) with
        os := os
        pc := none }

/-- The timers just initialised. -/
def Run.Init (r : Run τ) : Prop :=
  (∀ i, (∀ l, (r.os.row i).next (.head l) = .head l ∧ (r.os.row i).prev (.head l) = .head l) ∧
    ∀ t, (r.os.row i).next (.item t) = .item t ∧ (r.os.row i).prev (.item t) = .item t) ∧
  (∀ t, (r.os.timer t).activated = false) ∧ r.os.tick = r.now % 2 ^ 32 ∧ r.pc = none ∧
  r.starts = 0 ∧ (∀ t, r.born t = none) ∧ r.fired = [] ∧ r.stopped = []

/-- The runs of any number of timers. -/
def system (cfg : Config) : System (Run τ) (Op τ) where
  init := Run.Init
  step r op r' := ∃ fuel, r.exec cfg fuel op = some r'

end Exec

end EasyCore.Timer
