import EasyCore.Lib.Runs

/-! The application's timers (`easyio_core/app_timer.c`). `app_tmr_timeout` runs every 10 ms and
    counts the seconds; after each second `__timerout_in` looks at one timer after the other, and
    calls those whose period is over. Callbacks and threads allocate, set, start and destroy timers
    at any time.

        alloc ▶ config ▶ start ▶ ticks … ▶ fire ▶ ticks … ▶ fire ▶ …
                           ▲                 ▼
                           └── its callback ─┘ ▶ destroy -/

namespace EasyCore.AppTimer
open Function Runs

abbrev eiTimerCount : ℕ := 5
def eiTimerTypeOne : BitVec 8 := 1
def timerPreiod : ℕ := 10

/-- `EI_TIMER`, without the two members that nothing uses. -/
structure EiTimer where
  type : BitVec 8
  ticks : BitVec 32
  hisTime : BitVec 32
  timeout : ℕ
  timeoutArg : ℕ
  enable : BitVec 8
  alloc : BitVec 8

/-- What `memset` leaves. -/
def EiTimer.zero : EiTimer := ⟨0, 0, 0, 0, 0, 0, 0⟩

/-- A call of a timer's callback. -/
structure Call where
  timer : Fin eiTimerCount
  timeout : ℕ
  arg : ℕ
  deriving DecidableEq

/-- The clock, the timers, the next timer that `__timerout_in` looks at (`eiTimerCount` when it has
    looked at all), and the calls. For the statements below, `since` counts the seconds since the
    last start or call of an armed timer, and `gone` says that a timer has been destroyed and not
    been named by any call since. -/
structure State where
  second : BitVec 32
  ms : ℕ
  timer : Fin eiTimerCount → EiTimer
  cursor : ℕ
  calls : List Call
  since : Fin eiTimerCount → Option ℕ
  gone : Fin eiTimerCount → Bool

/-- What callbacks and threads do with timers; `config` is the assignment of the settings. -/
inductive Op
  | alloc
  | config (i : Fin eiTimerCount) (type : BitVec 8) (ticks : BitVec 32) (timeout timeoutArg : ℕ)
  | start (i : Fin eiTimerCount)
  | destroy (i : Fin eiTimerCount)

def State.set (s : State) (i : Fin eiTimerCount) (tmr : EiTimer) : State :=
  { s with timer := update s.timer i tmr }

def allocTimer (s : State) : State :=
  match (List.finRange eiTimerCount).find? fun i => (s.timer i).alloc = 0 with
  | some i => { s.set i { s.timer i with alloc := 1 } with gone := update s.gone i false }
  | none => s

def config (s : State) (i : Fin eiTimerCount) (type : BitVec 8) (ticks : BitVec 32)
    (timeout timeoutArg : ℕ) : State :=
  { s.set i { s.timer i with
      type := type, ticks := ticks, timeout := timeout, timeoutArg := timeoutArg } with
    gone := update s.gone i false }

def timerStart (s : State) (i : Fin eiTimerCount) : State :=
  { s.set i { s.timer i with hisTime := s.second, enable := 1 } with
    since := update s.since i (some 0), gone := update s.gone i false }

def destoryTimer (s : State) (i : Fin eiTimerCount) : State :=
  { s.set i .zero with since := update s.since i none, gone := update s.gone i true }

def exec (s : State) : Op → State
  | .alloc => allocTimer s
  | .config i type ticks timeout timeoutArg => config s i type ticks timeout timeoutArg
  | .start i => timerStart s i
  | .destroy i => destoryTimer s i

/-- The test of `__timerout_in`. -/
def expired (s : State) (i : Fin eiTimerCount) : Bool :=
  (s.timer i).enable = 1 ∧ (s.timer i).ticks < s.second - (s.timer i).hisTime

def callOf (s : State) (i : Fin eiTimerCount) : Call :=
  ⟨i, (s.timer i).timeout, (s.timer i).timeoutArg⟩

/-- The timer's reference is moved on, and its callback is called. -/
def callTimeout (s : State) (i : Fin eiTimerCount) : State :=
  { s.set i { s.timer i with hisTime := s.second } with
    calls := s.calls ++ [callOf s i],
    since := update s.since i (if (s.timer i).type = eiTimerTypeOne then none else some 0) }

/-- One round of the loop in `__timerout_in`; `ops` is what the callback does, if it is called. -/
def timeroutIn (s : State) (i : Fin eiTimerCount) (ops : List Op) : State :=
  if expired s i then
    let s := ops.foldl exec (callTimeout s i)
    if (s.timer i).type = eiTimerTypeOne then s.set i { s.timer i with enable := 0 } else s
  else s

/-- `app_tmr_timeout`: 10 ms are over. A second ends when the loop for the last one has ended. -/
def appTmrTimeout (s : State) : State :=
  if s.ms + timerPreiod < 1000 then { s with ms := s.ms + timerPreiod }
  else if s.cursor < eiTimerCount then s
  else { s with
    second := s.second + 1, ms := 0, cursor := 0, since := fun i => (s.since i).map (· + 1) }

/-- A call by a thread, 10 ms, or a round of the loop. -/
inductive Act
  | op (o : Op)
  | tmr
  | visit (ops : List Op)

def step (s : State) : Act → State
  | .op o => exec s o
  | .tmr => appTmrTimeout s
  | .visit ops =>
    if h : s.cursor < eiTimerCount then
      { timeroutIn s ⟨s.cursor, h⟩ ops with cursor := s.cursor + 1 }
    else s

/-- `init_app_timer` -/
def start : State where
  second := 0
  ms := 0
  timer := fun _ => .zero
  cursor := eiTimerCount
  calls := []
  since := fun _ => none
  gone := fun _ => false

/-! ### On time -/

/-- The calls due in a step, if a timer is due `late` seconds after its period is over. -/
def due (late : ℕ) (s : State) : Act → List Call
  | .visit _ =>
    if h : s.cursor < eiTimerCount then
      if s.since ⟨s.cursor, h⟩ = some ((s.timer ⟨s.cursor, h⟩).ticks.toNat + late) then
        [callOf s ⟨s.cursor, h⟩]
      else []
    else []
  | _ => []

/-- A step calls the timers that are due, and no others. A timer is armed after it if it has been
    started, or is periodic and has been called, and has not been destroyed since; and a timer that
    has been destroyed is left alone. -/
structure Right (late : ℕ) (s : State) (a : Act) : Prop where
  calls : (step s a).calls = s.calls ++ due late s a
  armed : ∀ i, ((step s a).timer i).enable = 1 ↔ (step s a).since i ≠ none
  untouched : ∀ i, (step s a).gone i = true → (step s a).timer i = .zero

/-- The timer in the loop, if it is armed, has not come to the end of its period. -/
def Ok (s : State) : Act → Prop
  | .visit _ => ∀ h : s.cursor < eiTimerCount, (s.timer ⟨s.cursor, h⟩).enable = 1 →
      s.second - (s.timer ⟨s.cursor, h⟩).hisTime < (s.timer ⟨s.cursor, h⟩).ticks
  | _ => True

/-- What a call does to a timer. -/
inductive Effect (s s' : State) (i : Fin eiTimerCount) : Prop
  | kept : s'.since i = s.since i → (s'.timer i).enable = (s.timer i).enable →
      (s'.timer i).hisTime = (s.timer i).hisTime →
      (s'.gone i = true → s.gone i = true ∧ s'.timer i = s.timer i) → Effect s s' i
  | started : s'.since i = some 0 → (s'.timer i).enable = 1 → (s'.timer i).hisTime = s.second →
      s'.gone i = false → Effect s s' i
  | destroyed : s'.since i = none → s'.timer i = .zero → Effect s s' i

theorem exec_effect (s : State) (o : Op) (i : Fin eiTimerCount) : Effect s (exec s o) i := by
  cases o with
  | alloc =>
    simp only [exec, allocTimer]
    split
    · next j _ =>
      rcases eq_or_ne i j with rfl | hne
      · exact .kept rfl (by simp [State.set]) (by simp [State.set]) (by simp)
      · exact .kept rfl (by simp [State.set, hne]) (by simp [State.set, hne])
          (by simp [State.set, hne])
    · exact .kept rfl rfl rfl fun hgone => ⟨hgone, rfl⟩
  | config j =>
    rcases eq_or_ne i j with rfl | hne
    · exact .kept rfl (by simp [exec, config, State.set]) (by simp [exec, config, State.set])
        (by simp [exec, config])
    · exact .kept rfl (by simp [exec, config, State.set, hne])
        (by simp [exec, config, State.set, hne]) (by simp [exec, config, State.set, hne])
  | start j =>
    rcases eq_or_ne i j with rfl | hne
    · exact .started (by simp [exec, timerStart]) (by simp [exec, timerStart, State.set])
        (by simp [exec, timerStart, State.set]) (by simp [exec, timerStart])
    · exact .kept (by simp [exec, timerStart, State.set, hne])
        (by simp [exec, timerStart, State.set, hne]) (by simp [exec, timerStart, State.set, hne])
        (by simp [exec, timerStart, State.set, hne])
  | destroy j =>
    rcases eq_or_ne i j with rfl | hne
    · exact .destroyed (by simp [exec, destoryTimer]) (by simp [exec, destoryTimer, State.set])
    · exact .kept (by simp [exec, destoryTimer, State.set, hne])
        (by simp [exec, destoryTimer, State.set, hne])
        (by simp [exec, destoryTimer, State.set, hne])
        (by simp [exec, destoryTimer, State.set, hne])

/-- A call leaves the clock, the loop and the calls alone. -/
theorem exec_frame (s : State) (o : Op) : (exec s o).second = s.second ∧
    (exec s o).cursor = s.cursor ∧ (exec s o).calls = s.calls := by
  cases o with
  | alloc =>
    simp only [exec, allocTimer]
    split <;> exact ⟨rfl, rfl, rfl⟩
  | config | start | destroy => exact ⟨rfl, rfl, rfl⟩

/-! ### Runs in which no timer comes to the end of its period -/

structure Inv (s : State) : Prop where
  armed : ∀ i, (s.timer i).enable = 1 ↔ s.since i ≠ none
  untouched : ∀ i, s.gone i = true → s.timer i = .zero
  elapsed : ∀ i d, s.since i = some d → (s.second - (s.timer i).hisTime).toNat = d ∧
    (i.val < s.cursor → d + 1 < 2 ^ 32)

theorem Inv.init : Inv start := by
  refine ⟨fun i => ?_, nofun, nofun⟩
  simp [start, EiTimer.zero]

theorem Inv.exec {s : State} (h : Inv s) (o : Op) : Inv (exec s o) := by
  obtain ⟨hsecond, hcursor, -⟩ := exec_frame s o
  refine ⟨fun i => ?_, fun i hgone => ?_, fun i d hd => ?_⟩
  · cases exec_effect s o i with
    | kept hsince henable =>
      rw [hsince, henable]
      exact h.armed i
    | started hsince henable => simp [hsince, henable]
    | destroyed hsince htimer => simp [hsince, htimer, EiTimer.zero]
  · cases exec_effect s o i with
    | kept _ _ _ hkept =>
      obtain ⟨hgone', htimer⟩ := hkept hgone
      rw [htimer]
      exact h.untouched i hgone'
    | started _ _ _ hnot => simp [hnot] at hgone
    | destroyed _ htimer => exact htimer
  · rw [hsecond, hcursor]
    cases exec_effect s o i with
    | kept hsince _ hhis =>
      rw [hhis]
      exact h.elapsed i d (hsince ▸ hd)
    | started hsince _ hhis =>
      obtain rfl : 0 = d := Option.some.inj (hsince.symm.trans hd)
      rw [hhis]
      exact ⟨by simp, fun _ => by omega⟩
    | destroyed hsince => simp [hsince] at hd

/-- One second more. -/
theorem elapsed_succ {second his : BitVec 32} (h : (second - his).toNat + 1 < 2 ^ 32) :
    (second + 1 - his).toNat = (second - his).toNat + 1 := by
  have : second + 1 - his = second - his + 1 := by rw [BitVec.add_sub_comm]
  rw [this, BitVec.toNat_add]
  simpa using Nat.mod_eq_of_lt h

theorem Inv.appTmrTimeout {s : State} (h : Inv s) : Inv (appTmrTimeout s) := by
  simp only [AppTimer.appTmrTimeout]
  split_ifs with hms hcursor
  · exact ⟨h.armed, h.untouched, h.elapsed⟩
  · exact h
  · refine ⟨fun i => (h.armed i).trans (by simp), h.untouched, fun i d hd => ?_⟩
    obtain ⟨d', hd', rfl⟩ := Option.map_eq_some_iff.1 hd
    obtain ⟨hdiff, hless⟩ := h.elapsed i d' hd'
    have hlt : d' + 1 < 2 ^ 32 := hless (lt_of_lt_of_le i.isLt (not_lt.1 hcursor))
    refine ⟨?_, fun hlt => absurd hlt (Nat.not_lt_zero _)⟩
    rw [← hdiff] at hlt ⊢
    exact elapsed_succ hlt

/-- A timer that has not come to the end of its period is not called. -/
theorem Inv.visit {s : State} (h : Inv s) {ops : List Op} (hok : Ok s (.visit ops)) :
    Inv (step s (.visit ops)) := by
  simp only [step]
  split
  · next hlt =>
    have hnot : expired s ⟨s.cursor, hlt⟩ = false := by
      simp only [expired, decide_eq_false_iff_not, not_and]
      intro henable hticks
      have := hok hlt henable
      simp only [BitVec.lt_def] at this hticks
      omega
    simp only [timeroutIn, hnot, Bool.false_eq_true, if_false]
    refine ⟨h.armed, h.untouched, fun i d hd => ?_⟩
    obtain ⟨hdiff, hless⟩ := h.elapsed i d hd
    refine ⟨hdiff, fun hi => ?_⟩
    rcases Nat.lt_succ_iff_lt_or_eq.1 hi with hi | hi
    · exact hless hi
    · obtain rfl : i = ⟨s.cursor, hlt⟩ := Fin.ext hi
      have hd' : s.since ⟨s.cursor, hlt⟩ = some d := hd
      have henable : (s.timer ⟨s.cursor, hlt⟩).enable = 1 := (h.armed _).2 (by simp [hd'])
      have := hok hlt henable
      simp only [BitVec.lt_def, hdiff] at this
      have := (s.timer ⟨s.cursor, hlt⟩).ticks.isLt
      omega
  · exact h

theorem Inv.step {s : State} (h : Inv s) {a : Act} (hok : Ok s a) : Inv (step s a) := by
  cases a with
  | op o => exact h.exec o
  | tmr => exact h.appTmrTimeout
  | visit ops => exact h.visit hok

theorem foldl_exec_frame (ops : List Op) (s : State) : (ops.foldl exec s).second = s.second ∧
    (ops.foldl exec s).cursor = s.cursor ∧ (ops.foldl exec s).calls = s.calls := by
  induction ops generalizing s with
  | nil => exact ⟨rfl, rfl, rfl⟩
  | cons o ops ih =>
    obtain ⟨hsecond, hcursor, hcalls⟩ := exec_frame s o
    rw [List.foldl_cons, ← hsecond, ← hcursor, ← hcalls]
    exact ih (exec s o)

/-- The loop calls the callback if and only if it finds the timer's period exceeded. -/
theorem timeroutIn_calls (s : State) (i : Fin eiTimerCount) (ops : List Op) :
    (timeroutIn s i ops).calls = s.calls ++ if expired s i then [callOf s i] else [] := by
  simp only [timeroutIn]
  obtain ⟨-, -, hcalls⟩ := foldl_exec_frame ops (callTimeout s i)
  split_ifs
  · exact hcalls
  · exact hcalls
  · simp

/-- The round calls the timers that are due if and only if its test finds them. -/
theorem visit_calls_iff (late : ℕ) {s : State} (h : s.cursor < eiTimerCount) (ops : List Op) :
    (step s (.visit ops)).calls = s.calls ++ due late s (.visit ops) ↔
      (expired s ⟨s.cursor, h⟩ = true ↔
        s.since ⟨s.cursor, h⟩ = some ((s.timer ⟨s.cursor, h⟩).ticks.toNat + late)) := by
  simp only [step, h, dif_pos, timeroutIn_calls, due, List.append_cancel_left_eq]
  split_ifs <;> simp [*]

theorem calls_of_not_visit (late : ℕ) {s : State} {a : Act}
    (h : ∀ ops, a = .visit ops → eiTimerCount ≤ s.cursor) :
    (step s a).calls = s.calls ++ due late s a := by
  cases a with
  | op o => simpa [step, due] using (exec_frame s o).2.2
  | tmr =>
    simp only [step, appTmrTimeout, due, List.append_nil]
    split_ifs <;> rfl
  | visit ops => simp [step, due, Nat.not_lt.2 (h ops rfl)]

/-- A step is right if and only if no timer in it has come to the end of its period. -/
theorem Inv.right_iff {s : State} (h : Inv s) (a : Act) : Right 0 s a ↔ Ok s a := by
  have helapsed : ∀ i, (s.timer i).enable = 1 →
      s.since i = some (s.second - (s.timer i).hisTime).toNat := by
    intro i henable
    obtain ⟨d, hd⟩ := Option.ne_none_iff_exists'.1 ((h.armed i).1 henable)
    rw [hd, (h.elapsed i d hd).1]
  constructor
  · intro hright
    cases a with
    | op | tmr => trivial
    | visit ops =>
      intro hlt henable
      have hcalls := (visit_calls_iff 0 hlt ops).1 hright.calls
      rw [helapsed _ henable, Option.some.injEq, expired, decide_eq_true_iff, BitVec.lt_def] at hcalls
      rw [BitVec.lt_def]
      by_contra hle
      have := hcalls.1 ⟨henable, by omega⟩
      omega
  · intro hok
    have hinv := h.step hok
    refine ⟨?_, hinv.armed, hinv.untouched⟩
    rcases em (∃ ops, a = .visit ops ∧ s.cursor < eiTimerCount) with ⟨ops, rfl, hlt⟩ | hnot
    · rw [visit_calls_iff 0 hlt]
      constructor
      · intro hexp
        rw [expired, decide_eq_true_iff, BitVec.lt_def] at hexp
        have := hok hlt hexp.1
        rw [BitVec.lt_def] at this
        omega
      · intro hd
        have henable := (h.armed _).2 (by rw [hd]; simp)
        have := hok hlt henable
        rw [helapsed _ henable, Option.some.injEq] at hd
        rw [BitVec.lt_def] at this
        omega
    · exact calls_of_not_visit 0 fun ops ha => not_lt.1 fun hlt => hnot ⟨ops, ha, hlt⟩

/-- CORRECT: every step of a run has its timers on time if and only if none of them comes to the end
    of its period. -/
theorem onTime_iff (as : List Act) : Along step (Right 0) start as ↔ Along step Ok start as :=
  Along.iff (fun _ a h => Inv.right_iff h a) (fun _ _ h hok => h.step hok) as .init

/-- A timer with a period of one second. -/
def oneSecond : List Act :=
  [.op .alloc, .op (.config 0 0 1 1 0), .op (.start 0)] ++ List.replicate 100 .tmr

/-- After the second, the loop does not call it. -/
theorem second_late : ¬∀ as, Along step (Right 0) start as := by
  intro h
  obtain ⟨-, hright, -⟩ := along_append.1 (h (oneSecond ++ [.visit []]))
  have hcalls : ¬(step (oneSecond.foldl step start) (.visit [])).calls =
      (oneSecond.foldl step start).calls ++ due 0 (oneSecond.foldl step start) (.visit []) := by
    decide +kernel
  exact hcalls hright.calls

/-! ### A second late -/

/-- The settings of a timer are not changed while it is armed, and its period is not the longest. -/
def OpOk (s : State) : Op → Prop
  | .config i _ ticks _ _ => (s.timer i).enable ≠ 1 ∧ ticks.toNat + 1 < 2 ^ 32
  | _ => True

/-- A callback that leaves its timer one-shot has not started it. -/
def LateOk (s : State) : Act → Prop
  | .op o => OpOk s o
  | .tmr => True
  | .visit ops => ∀ h : s.cursor < eiTimerCount, expired s ⟨s.cursor, h⟩ = true →
      Along exec OpOk (callTimeout s ⟨s.cursor, h⟩) ops ∧
        (((ops.foldl exec (callTimeout s ⟨s.cursor, h⟩)).timer ⟨s.cursor, h⟩).type = eiTimerTypeOne →
          (ops.foldl exec (callTimeout s ⟨s.cursor, h⟩)).since ⟨s.cursor, h⟩ = none)

/-- The invariant, also within the callback of timer `calling`. -/
structure Late (calling : Option (Fin eiTimerCount)) (s : State) : Prop where
  armed : ∀ i, s.since i ≠ none → (s.timer i).enable = 1
  unarmed : ∀ i, (s.timer i).enable = 1 → s.since i = none →
    calling = some i ∧ (s.timer i).type = eiTimerTypeOne
  untouched : ∀ i, s.gone i = true → s.timer i = .zero
  bound : ∀ i, (s.timer i).ticks.toNat + 1 < 2 ^ 32
  elapsed : ∀ i d, s.since i = some d → (s.second - (s.timer i).hisTime).toNat = d ∧
    d ≤ (s.timer i).ticks.toNat + if i.val < s.cursor ∨ calling = some i then 0 else 1

theorem Late.init : Late none start := by
  refine ⟨fun i h => absurd rfl h, fun i h => ?_, nofun, fun i => ?_, nofun⟩
  · simp [start, EiTimer.zero] at h
  · simp [start, EiTimer.zero]

/-- What a call does to the settings of a timer. -/
theorem exec_settings {s : State} {o : Op} (hok : OpOk s o) (i : Fin eiTimerCount) :
    (exec s o).timer i = .zero ∨ (s.timer i).enable ≠ 1 ∧ ((exec s o).timer i).ticks.toNat + 1 < 2 ^ 32 ∨
      ((exec s o).timer i).type = (s.timer i).type ∧ ((exec s o).timer i).ticks = (s.timer i).ticks := by
  cases o with
  | alloc =>
    right; right
    simp only [exec, allocTimer]
    split
    · next j _ => rcases eq_or_ne i j with rfl | hne <;> simp [State.set, *]
    · exact ⟨rfl, rfl⟩
  | config j =>
    right
    rcases eq_or_ne i j with rfl | hne
    · left
      simpa [exec, config, State.set, OpOk] using hok
    · right
      simp [exec, config, State.set, hne]
  | start j =>
    right; right
    rcases eq_or_ne i j with rfl | hne <;> simp [exec, timerStart, State.set, *]
  | destroy j =>
    rcases eq_or_ne i j with rfl | hne
    · left
      simp [exec, destoryTimer, State.set]
    · right; right
      simp [exec, destoryTimer, State.set, hne]

theorem Late.exec {calling : Option (Fin eiTimerCount)} {s : State} (h : Late calling s) {o : Op}
    (hok : OpOk s o) : Late calling (exec s o) := by
  obtain ⟨hsecond, hcursor, -⟩ := exec_frame s o
  have hzero : EiTimer.zero.enable ≠ 1 := by decide
  refine ⟨fun i hi => ?_, fun i henable hnone => ?_, fun i hgone => ?_, fun i => ?_, fun i d hd => ?_⟩
  · cases exec_effect s o i with
    | kept hsince henable =>
      rw [henable]
      exact h.armed i (hsince ▸ hi)
    | started _ henable => exact henable
    | destroyed hsince => exact absurd hsince hi
  · cases exec_effect s o i with
    | kept hsince henable' =>
      rw [henable'] at henable
      obtain ⟨hcalling, htype⟩ := h.unarmed i henable (hsince ▸ hnone)
      rcases exec_settings hok i with hz | ⟨hne, -⟩ | ⟨htype', -⟩
      · rw [hz] at henable'
        exact absurd (henable'.trans henable) hzero
      · exact absurd henable hne
      · exact ⟨hcalling, htype'.trans htype⟩
    | started hsince => simp [hsince] at hnone
    | destroyed _ htimer =>
      rw [htimer] at henable
      exact absurd henable hzero
  · cases exec_effect s o i with
    | kept _ _ _ hkept =>
      obtain ⟨hgone', htimer⟩ := hkept hgone
      rw [htimer]
      exact h.untouched i hgone'
    | started _ _ _ hnot => simp [hnot] at hgone
    | destroyed _ htimer => exact htimer
  · rcases exec_settings hok i with hz | ⟨-, hbound⟩ | ⟨-, hticks⟩
    · simp [hz, EiTimer.zero]
    · exact hbound
    · rw [hticks]
      exact h.bound i
  · rw [hsecond, hcursor]
    cases exec_effect s o i with
    | kept hsince henable hhis =>
      have hi : s.since i = some d := hsince ▸ hd
      have harmed := h.armed i (by simp [hi])
      rcases exec_settings hok i with hz | ⟨hne, -⟩ | ⟨-, hticks⟩
      · rw [hz] at henable
        exact absurd (henable.trans harmed) hzero
      · exact absurd harmed hne
      · rw [hhis, hticks]
        exact h.elapsed i d hi
    | started hsince _ hhis =>
      obtain rfl : 0 = d := Option.some.inj (hsince.symm.trans hd)
      rw [hhis]
      exact ⟨by simp, Nat.zero_le _⟩
    | destroyed hsince => simp [hsince] at hd

theorem Late.appTmrTimeout {s : State} (h : Late none s) : Late none (appTmrTimeout s) := by
  simp only [AppTimer.appTmrTimeout]
  split_ifs with hms hcursor
  · exact ⟨h.armed, h.unarmed, h.untouched, h.bound, h.elapsed⟩
  · exact h
  · refine ⟨fun i hi => h.armed i (by simpa using hi), fun i henable hnone => ?_, h.untouched, h.bound,
      fun i d hd => ?_⟩
    · exact h.unarmed i henable (by simpa using hnone)
    · obtain ⟨d', hd', rfl⟩ := Option.map_eq_some_iff.1 hd
      obtain ⟨hdiff, hle⟩ := h.elapsed i d' hd'
      have hbound := h.bound i
      have hi : i.val < s.cursor := lt_of_lt_of_le i.isLt (not_lt.1 hcursor)
      simp only [hi, true_or, if_true] at hle
      refine ⟨?_, by simpa using hle⟩
      have hlt : d' + 1 < 2 ^ 32 := by omega
      rw [← hdiff] at hlt ⊢
      exact elapsed_succ hlt

/-- The callback begins. -/
theorem Late.callTimeout {s : State} (h : Late none s) {i : Fin eiTimerCount}
    (henable : (s.timer i).enable = 1) : Late (some i) (callTimeout s i) := by
  have hgone : s.gone i ≠ true := fun hg => by
    rw [h.untouched i hg] at henable
    exact absurd henable (by decide)
  refine ⟨fun j hj => ?_, fun j hj hnone => ?_, fun j hj => ?_, fun j => ?_, fun j d hd => ?_⟩
  · rcases eq_or_ne j i with rfl | hne
    · simpa [AppTimer.callTimeout, State.set] using henable
    · simp only [AppTimer.callTimeout, State.set, update_of_ne hne] at hj ⊢
      exact h.armed j hj
  · rcases eq_or_ne j i with rfl | hne
    · refine ⟨rfl, ?_⟩
      simp only [AppTimer.callTimeout, State.set, update_self] at hnone ⊢
      split_ifs at hnone with htype
      exact htype
    · simp only [AppTimer.callTimeout, State.set, update_of_ne hne] at hj hnone
      exact nomatch (h.unarmed j hj hnone).1
  · rcases eq_or_ne j i with rfl | hne
    · exact absurd hj hgone
    · simp only [AppTimer.callTimeout, State.set, update_of_ne hne] at hj ⊢
      exact h.untouched j hj
  · rcases eq_or_ne j i with rfl | hne
    · simpa [AppTimer.callTimeout, State.set] using h.bound j
    · simpa [AppTimer.callTimeout, State.set, hne] using h.bound j
  · rcases eq_or_ne j i with rfl | hne
    · simp only [AppTimer.callTimeout, State.set, update_self] at hd ⊢
      split_ifs at hd
      obtain rfl : 0 = d := Option.some.inj hd
      exact ⟨by simp, Nat.zero_le _⟩
    · simp only [AppTimer.callTimeout, State.set, update_of_ne hne] at hd ⊢
      simpa [hne.symm] using h.elapsed j d hd

/-- The callback of a timer that it leaves periodic ends. -/
theorem Late.leave {s : State} {i : Fin eiTimerCount} (h : Late (some i) s) (hi : i.val = s.cursor)
    (htype : (s.timer i).type ≠ eiTimerTypeOne) : Late none { s with cursor := s.cursor + 1 } := by
  refine ⟨h.armed, fun j hj hnone => ?_, h.untouched, h.bound, fun j d hd => ?_⟩
  · obtain ⟨hij, hone⟩ := h.unarmed j hj hnone
    obtain rfl : i = j := Option.some.inj hij
    exact absurd hone htype
  · obtain ⟨hdiff, hle⟩ := h.elapsed j d hd
    refine ⟨hdiff, ?_⟩
    rcases eq_or_ne j i with rfl | hne
    · simpa [hi] using hle
    · have hne' : j.val ≠ s.cursor := fun he => hne (Fin.ext (he.trans hi.symm))
      have hlt : j.val < s.cursor + 1 ↔ j.val < s.cursor := by omega
      simpa [hne.symm, hlt] using hle

/-- The callback of a one-shot timer ends, and the timer is disarmed. -/
theorem Late.disarm {s : State} {i : Fin eiTimerCount} (h : Late (some i) s) (hi : i.val = s.cursor)
    (htype : (s.timer i).type = eiTimerTypeOne) (hnone : s.since i = none) :
    Late none { s.set i { s.timer i with enable := 0 } with cursor := s.cursor + 1 } := by
  refine ⟨fun j hj => ?_, fun j hj hnone' => ?_, fun j hj => ?_, fun j => ?_, fun j d hd => ?_⟩
  · rcases eq_or_ne j i with rfl | hne
    · exact absurd hnone hj
    · simp only [State.set, update_of_ne hne]
      exact h.armed j hj
  · rcases eq_or_ne j i with rfl | hne
    · simp [State.set] at hj
    · simp only [State.set, update_of_ne hne] at hj
      exact absurd (Option.some.inj (h.unarmed j hj hnone').1).symm hne
  · rcases eq_or_ne j i with rfl | hne
    · rw [h.untouched j hj] at htype
      exact absurd htype (by decide)
    · simp only [State.set, update_of_ne hne]
      exact h.untouched j hj
  · rcases eq_or_ne j i with rfl | hne
    · simpa [State.set] using h.bound j
    · simpa [State.set, hne] using h.bound j
  · rcases eq_or_ne j i with rfl | hne
    · exact absurd (hnone.symm.trans hd) nofun
    · have hne' : j.val ≠ s.cursor := fun he => hne (Fin.ext (he.trans hi.symm))
      have hlt : j.val < s.cursor + 1 ↔ j.val < s.cursor := by omega
      simp only [State.set, update_of_ne hne]
      simpa [hne.symm, hlt] using h.elapsed j d hd

/-- The timer's period is not exceeded, and the loop goes on. -/
theorem Late.pass {s : State} (h : Late none s) (hlt : s.cursor < eiTimerCount)
    (hexp : ¬expired s ⟨s.cursor, hlt⟩ = true) : Late none { s with cursor := s.cursor + 1 } := by
  refine ⟨h.armed, h.unarmed, h.untouched, h.bound, fun j d hd => ?_⟩
  obtain ⟨hdiff, hle⟩ := h.elapsed j d hd
  refine ⟨hdiff, ?_⟩
  rcases eq_or_ne j.val s.cursor with hj | hne
  · obtain rfl : j = ⟨s.cursor, hlt⟩ := Fin.ext hj
    have henable := h.armed _ (by rw [show s.since ⟨s.cursor, hlt⟩ = some d from hd]; simp)
    simp only [expired, henable, true_and, decide_eq_true_eq, BitVec.lt_def, not_lt, hdiff] at hexp
    exact hexp.trans (Nat.le_add_right _ _)
  · have hlt' : j.val < s.cursor + 1 ↔ j.val < s.cursor := by omega
    simpa [hlt'] using hle

/-- The loop goes on to the next timer. -/
theorem Late.visit {s : State} (h : Late none s) {ops : List Op} (hok : LateOk s (.visit ops)) :
    Late none (step s (.visit ops)) := by
  simp only [AppTimer.step]
  split
  · next hlt =>
    simp only [timeroutIn]
    rcases em (expired s ⟨s.cursor, hlt⟩ = true) with hexp | hexp
    · obtain ⟨hops, hone⟩ := hok hlt hexp
      have henable : (s.timer ⟨s.cursor, hlt⟩).enable = 1 := by
        rw [expired, decide_eq_true_iff] at hexp
        exact hexp.1
      have hafter := hops.invariant (fun _ _ hs hop => hs.exec hop) ops (h.callTimeout henable)
      obtain ⟨-, hcursor, -⟩ := foldl_exec_frame ops (AppTimer.callTimeout s ⟨s.cursor, hlt⟩)
      have hi : (⟨s.cursor, hlt⟩ : Fin eiTimerCount).val =
          (ops.foldl AppTimer.exec (AppTimer.callTimeout s ⟨s.cursor, hlt⟩)).cursor := hcursor.symm
      rw [if_pos hexp]
      split_ifs with htype
      · have := hafter.disarm hi htype (hone htype)
        rwa [← hi] at this
      · have := hafter.leave hi htype
        rwa [← hi] at this
    · rw [if_neg hexp]
      exact h.pass hlt hexp
  · exact h

theorem Late.step {s : State} (h : Late none s) {a : Act} (hok : LateOk s a) : Late none (step s a) := by
  cases a with
  | op o => exact h.exec hok
  | tmr => exact h.appTmrTimeout
  | visit ops => exact h.visit hok

theorem Late.right {s : State} (h : Late none s) {a : Act} (hok : LateOk s a) : Right 1 s a := by
  have hlate := h.step hok
  refine ⟨?_, fun i => ⟨fun henable hnone => ?_, hlate.armed i⟩, hlate.untouched⟩
  · rcases em (∃ ops, a = .visit ops ∧ s.cursor < eiTimerCount) with ⟨ops, rfl, hlt⟩ | hnot
    · rw [visit_calls_iff 1 hlt, expired, decide_eq_true_iff, BitVec.lt_def]
      constructor
      · rintro ⟨henable, hticks⟩
        obtain ⟨d, hd⟩ := Option.ne_none_iff_exists'.1 fun hnone =>
          nomatch (h.unarmed _ henable hnone).1
        obtain ⟨hdiff, hle⟩ := h.elapsed _ d hd
        simp only [lt_irrefl, reduceCtorEq, or_self, if_false] at hle
        rw [hd, show d = (s.timer ⟨s.cursor, hlt⟩).ticks.toNat + 1 by omega]
      · intro hd
        have henable := h.armed _ (by rw [hd]; simp)
        have hdiff := (h.elapsed _ _ hd).1
        exact ⟨henable, by omega⟩
    · exact calls_of_not_visit 1 fun ops ha => not_lt.1 fun hlt => hnot ⟨ops, ha, hlt⟩
  · exact nomatch (hlate.unarmed i henable hnone).1

/-- What the loop does: if no one-shot timer is started by its own callback, each timer is called one
    second after it is due. -/
theorem late_right (as : List Act) (h : Along step LateOk start as) : Along step (Right 1) start as :=
  Along.imp (I := Late none) (fun _ _ hlate hok => hlate.right hok)
    (fun _ _ hlate hok => hlate.step hok) as .init h

instance (s : State) : ∀ o : Op, Decidable (OpOk s o)
  | .config .. => instDecidableAnd
  | .alloc | .start _ | .destroy _ => .isTrue trivial

instance (s : State) : ∀ a : Act, Decidable (LateOk s a)
  | .op o => inferInstanceAs (Decidable (OpOk s o))
  | .tmr => .isTrue trivial
  | .visit _ => forall_prop_decidable _

/-- With a period of one second, it is called after two. -/
theorem late_right_two : Along step (Right 1) start
    (oneSecond ++ .replicate 5 (.visit []) ++ .replicate 100 .tmr ++ [.visit []]) :=
  late_right _ (by decide +kernel)

end EasyCore.AppTimer
