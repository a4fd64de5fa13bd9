import Mathlib

/-! The POSIX clock (`components/pthreads/clock_time.c`).

    What is stored is the time at tick 0, in seconds and microseconds; a reading adds the ticks.

        _timevalue ──+ tick──▶ tv_sec, tv_nsec ──difference──▶ second, nsecond ──▶ ticks

    `long`, `int`, `time_t` and `rt_tick_t` are 32 bits wide, and what leaves them wraps around. -/

namespace EasyCore.ClockTime

/-- The values of a `long`, an `int` or a `time_t`. -/
abbrev Long := {x : ℤ // -2 ^ 31 ≤ x ∧ x < 2 ^ 31}

/-- The conversion to `long`. -/
def long (x : ℤ) : Long := ⟨(x + 2 ^ 31) % 2 ^ 32 - 2 ^ 31, by omega⟩

/-- `rt_tick_t`. -/
abbrev RtTick := Fin (2 ^ 32)

/-- `RT_TICK_PER_SECOND` (`rtconfig.h`). -/
def rtTickPerSecond : ℤ := 100

def microsecondPerSecond : ℤ := 1000000
def nanosecondPerSecond : ℤ := 1000000000
def microsecondPerTick : ℤ := microsecondPerSecond / rtTickPerSecond
def nanosecondPerTick : ℤ := nanosecondPerSecond / rtTickPerSecond

def clockRealtime : ℤ := 0
def einval : ℤ := 22
def rtWaitingForever : ℤ := -1

/-- `struct timeval`. -/
structure Timeval where
  tvSec : Long
  tvUsec : Long

/-- `struct timespec`. -/
structure Timespec where
  tvSec : Long
  tvNsec : Long

/-- `_timevalue`, and the seconds of the device `rtc` if there is one. -/
structure Clock where
  timevalue : Timeval
  rtc : Option Long

/-- What a call returns: 0, or -1 with the error number that it sets. -/
inductive Ret
  | ok
  | error (errno : Option ℤ)
  deriving DecidableEq

/-- `clock_time_system_init`. -/
def clockTimeSystemInit (rtc : Option Long) (tick : RtTick) : Clock where
  timevalue :=
    { tvSec := long (rtc.elim 0 (↑·) - tick.val / rtTickPerSecond - 1)
      tvUsec := long (tick.val % rtTickPerSecond * microsecondPerTick) }
  rtc := rtc

/-- What `clock_gettime` stores to `tp`. -/
def Clock.reading (c : Clock) (tick : RtTick) : Timespec where
  tvSec := long (c.timevalue.tvSec + tick.val / rtTickPerSecond)
  tvNsec := long ((c.timevalue.tvUsec + tick.val % rtTickPerSecond * nanosecondPerTick) * 1000)

/-- `clock_gettime`; `tp` is what the pointer points to, if it is not `NULL`. -/
def Clock.gettime (c : Clock) (tick : RtTick) (clockid : ℤ) (tp : Option Timespec) :
    Ret × Option Timespec :=
  if clockid ≠ clockRealtime ∨ tp.isNone then (.error (some einval), tp)
  else (.ok, some (c.reading tick))

/-- `clock_settime`; without an `rtc` it fails after it has set the time. -/
def Clock.settime (c : Clock) (tick : RtTick) (clockid : ℤ) (tp : Option Timespec) : Ret × Clock :=
  match tp with
  | none => (.error (some einval), c)
  | some tp =>
    if clockid ≠ clockRealtime then (.error (some einval), c)
    else
      let second := tp.tvSec
      let timevalue : Timeval :=
        { tvSec := long (second - tick.val / rtTickPerSecond - 1)
          tvUsec := long (microsecondPerSecond - tick.val % rtTickPerSecond * microsecondPerTick) }
      match c.rtc with
      | some _ => (.ok, { timevalue := timevalue, rtc := some second })
      | none => (.error none, { timevalue := timevalue, rtc := none })

/-- `second` and `nsecond` of `clock_time_to_tick`. -/
def difference (tp time : Timespec) : Long × Long :=
  if (long (time.tvNsec - tp.tvNsec) : ℤ) < 0 then
    (long (time.tvSec - tp.tvSec - 1), long (nanosecondPerSecond - (tp.tvNsec - time.tvNsec)))
  else (long (time.tvSec - tp.tvSec), long (time.tvNsec - tp.tvNsec))

/-- The ticks of a difference; `NANOSECOND_PER_SECOND` is unsigned, and so is what it divides. -/
def ticksOf (d : Long × Long) : ℤ :=
  long (d.1 * rtTickPerSecond + d.2 * rtTickPerSecond % 2 ^ 32 / nanosecondPerSecond)

/-- `clock_time_to_tick`. -/
def Clock.timeToTick (c : Clock) (now : RtTick) (time : Option Timespec) : ℤ :=
  match time with
  | none => rtWaitingForever
  | some time =>
    let tick := ticksOf (difference (c.reading now) time)
    if tick < 0 then 0 else tick

/-- A call of `clock_settime` at a tick. -/
structure Call where
  tick : RtTick
  clockid : ℤ
  tp : Option Timespec

/-- The clock after a system start at the tick `boot` and the calls. -/
def history (rtc : Option Long) (boot : RtTick) (calls : List Call) : Clock :=
  calls.foldl (fun c x => (c.settime x.tick x.clockid x.tp).2) (clockTimeSystemInit rtc boot)

/-! ### What a reading and a distance should be -/

/-- A time in nanoseconds. -/
def Timespec.ns (t : Timespec) : ℤ := t.tvSec * 10 ^ 9 + t.tvNsec

/-- The nanoseconds of a reading are a part of a second. -/
def Timespec.Proper (t : Timespec) : Prop := 0 ≤ (t.tvNsec : ℤ) ∧ (t.tvNsec : ℤ) < 10 ^ 9

instance (t : Timespec) : Decidable t.Proper := inferInstanceAs (Decidable (_ ∧ _))

/-- The whole ticks from `now` until `time`; none if it is past. -/
def ticksUntil (now time : Timespec) : ℤ := max 0 ((time.ns - now.ns) * 100 / 10 ^ 9)

/-- 1 if the code takes a second from the seconds: the nanoseconds, in a `long`, are less. -/
def borrow (now time : Timespec) : ℤ := if (long (time.tvNsec - now.tvNsec) : ℤ) < 0 then 1 else 0

/-- The seconds from `now` to `time`, after the borrow. -/
def seconds (now time : Timespec) : ℤ := time.tvSec - now.tvSec - borrow now time

/-- The nanoseconds left over, after the borrow. -/
def nanos (now time : Timespec) : ℤ := time.tvNsec - now.tvNsec + borrow now time * 10 ^ 9

/-- Where the code counts right. A time that is due is in the half of a word below a multiple of it;
    of a time that is a tick or more ahead, the nanoseconds, times 100, are in a word. -/
def CountsRight (now time : Timespec) : Prop :=
  if (time.ns - now.ns) * 100 < 10 ^ 9 then
    ∃ m : ℤ, m * 2 ^ 32 - 2 ^ 31 ≤ seconds now time * 100 + nanos now time * 100 % 2 ^ 32 / 10 ^ 9 ∧
      seconds now time * 100 + nanos now time * 100 % 2 ^ 32 / 10 ^ 9 ≤ m * 2 ^ 32
  else 0 ≤ nanos now time ∧ nanos now time * 100 < 2 ^ 32

/-! ### Words -/

theorem val_long (x : ℤ) : (long x : ℤ) = (x + 2 ^ 31) % 2 ^ 32 - 2 ^ 31 := rfl

theorem long_of_fits {x : ℤ} (h : -2 ^ 31 ≤ x ∧ x < 2 ^ 31) : (long x : ℤ) = x := by
  rw [val_long]; omega

theorem long_modEq (x : ℤ) : (long x : ℤ) ≡ x [ZMOD 2 ^ 32] := by
  rw [val_long, Int.ModEq]; omega

theorem long_congr {x y : ℤ} (h : x ≡ y [ZMOD 2 ^ 32]) : long x = long y := by
  refine Subtype.ext ?_
  rw [val_long, val_long, (h.add_right (2 ^ 31)).eq]

/-- In which halves of words a `long` is not positive. -/
theorem long_nonpos_iff (x : ℤ) :
    (long x : ℤ) ≤ 0 ↔ ∃ m : ℤ, m * 2 ^ 32 - 2 ^ 31 ≤ x ∧ x ≤ m * 2 ^ 32 := by
  rw [val_long]
  constructor
  · intro h
    exact ⟨(x + 2 ^ 31) / 2 ^ 32, by omega, by omega⟩
  · rintro ⟨m, hlo, hhi⟩
    omega

theorem long_range_iff (x : ℤ) : (0 ≤ (long x : ℤ) ∧ (long x : ℤ) < 10 ^ 9) ↔ x % 2 ^ 32 < 10 ^ 9 := by
  rw [val_long]; omega

/-! ### Readings -/

/-- The microseconds stored are at most a second. -/
def Clock.Stored (c : Clock) : Prop :=
  0 ≤ (c.timevalue.tvUsec : ℤ) ∧ (c.timevalue.tvUsec : ℤ) ≤ 10 ^ 6

theorem init_stored (rtc : Option Long) (tick : RtTick) : (clockTimeSystemInit rtc tick).Stored := by
  show 0 ≤ (long _ : ℤ) ∧ (long _ : ℤ) ≤ 10 ^ 6
  rw [long_of_fits] <;> simp only [rtTickPerSecond, microsecondPerTick, microsecondPerSecond] <;> omega

theorem settime_stored {c : Clock} (hc : c.Stored) (tick : RtTick) (clockid : ℤ)
    (tp : Option Timespec) : (c.settime tick clockid tp).2.Stored := by
  have hnew : 0 ≤ (long (microsecondPerSecond - tick.val % rtTickPerSecond * microsecondPerTick) : ℤ) ∧
      (long (microsecondPerSecond - tick.val % rtTickPerSecond * microsecondPerTick) : ℤ) ≤ 10 ^ 6 := by
    rw [long_of_fits] <;> simp only [rtTickPerSecond, microsecondPerTick, microsecondPerSecond] <;> omega
  rcases tp with _ | tp
  · exact hc
  · unfold Clock.settime
    by_cases hid : clockid ≠ clockRealtime
    · simp only [if_pos hid]
      exact hc
    · simp only [if_neg hid]
      rcases c.rtc with _ | _ <;> exact hnew

theorem history_stored (rtc : Option Long) (boot : RtTick) (calls : List Call) :
    (history rtc boot calls).Stored := by
  induction calls using List.reverseRecOn with
  | nil => exact init_stored rtc boot
  | append_singleton calls x ih =>
      rw [history, List.foldl_append]
      exact settime_stored ih x.tick x.clockid x.tp

/-- The nanoseconds of a reading: each tick counts ten milliseconds a thousand times. -/
theorem tvNsec_eq (c : Clock) (tick : RtTick) : (c.reading tick).tvNsec =
    long (c.timevalue.tvUsec * 1000 + tick.val % 100 * 10 ^ 10) := by
  rw [Clock.reading, show (c.timevalue.tvUsec : ℤ) * 1000 + tick.val % 100 * 10 ^ 10 =
    (c.timevalue.tvUsec + tick.val % rtTickPerSecond * nanosecondPerTick) * 1000 by
      rw [show nanosecondPerTick = 10 ^ 7 from rfl, show rtTickPerSecond = 100 from rfl]; ring]

theorem proper_iff (c : Clock) (tick : RtTick) : (c.reading tick).Proper ↔
    ((c.timevalue.tvUsec : ℤ) * 1000 + tick.val % 100 * 10 ^ 10) % 2 ^ 32 < 10 ^ 9 := by
  rw [Timespec.Proper, tvNsec_eq]
  exact long_range_iff _

/-- The first tick after a full second is never in the range of nanoseconds. -/
theorem not_proper {c : Clock} (hc : c.Stored) {tick : RtTick} (h : tick.val % 100 = 1) :
    ¬ (c.reading tick).Proper := by
  obtain ⟨hlo, hhi⟩ := hc
  have he : (tick.val : ℤ) % 100 = 1 := by omega
  have hx : 0 ≤ (c.timevalue.tvUsec : ℤ) * 1000 ∧ (c.timevalue.tvUsec : ℤ) * 1000 ≤ 10 ^ 9 := by omega
  rw [proper_iff, he]
  generalize (c.timevalue.tvUsec : ℤ) * 1000 = x at hx ⊢
  omega

/-- In one of the first two steps of a second the nanoseconds become less. -/
theorem falls {c : Clock} (hc : c.Stored) (t₀ t₁ t₂ : RtTick) (h₀ : t₀.val % 100 = 0)
    (h₁ : t₁.val = t₀.val + 1) (h₂ : t₂.val = t₀.val + 2) :
    ((c.reading t₁).tvNsec : ℤ) < (c.reading t₀).tvNsec ∨
      ((c.reading t₂).tvNsec : ℤ) < (c.reading t₁).tvNsec := by
  obtain ⟨hlo, hhi⟩ := hc
  have he₀ : (t₀.val : ℤ) % 100 = 0 := by omega
  have he₁ : (t₁.val : ℤ) % 100 = 1 := by omega
  have he₂ : (t₂.val : ℤ) % 100 = 2 := by omega
  rw [tvNsec_eq, tvNsec_eq, tvNsec_eq, he₀, he₁, he₂, val_long, val_long, val_long]
  have hx : 0 ≤ (c.timevalue.tvUsec : ℤ) * 1000 ∧ (c.timevalue.tvUsec : ℤ) * 1000 ≤ 10 ^ 9 := by omega
  generalize (c.timevalue.tvUsec : ℤ) * 1000 = x at hx ⊢
  omega

/-- The ticks of one second are read with the same seconds. -/
theorem tvSec_eq (c : Clock) {t u : RtTick} (h : t.val / 100 = u.val / 100) :
    (c.reading t).tvSec = (c.reading u).tvSec := by
  have heq : (t.val : ℤ) / 100 = u.val / 100 := by exact_mod_cast h
  rw [Clock.reading, Clock.reading]
  simp only [rtTickPerSecond, heq]

/-! ### Distances -/

/-- A count from a second on: its part of a second, `y`, is counted in a word. -/
theorem counted_iff {s y : ℤ} (hy : -2 ^ 40 ≤ y ∧ y ≤ 2 ^ 40) (hsome : 1 ≤ s + y / 10 ^ 9)
    (hfits : s + y / 10 ^ 9 < 2 ^ 31) :
    max 0 (long (s + y % 2 ^ 32 / 10 ^ 9) : ℤ) = s + y / 10 ^ 9 ↔ 0 ≤ y ∧ y < 2 ^ 32 := by
  have hpart : 0 ≤ y % 2 ^ 32 / 10 ^ 9 ∧ y % 2 ^ 32 / 10 ^ 9 ≤ 4 := by omega
  constructor
  · intro heq
    have hlong : (long (s + y % 2 ^ 32 / 10 ^ 9) : ℤ) = s + y / 10 ^ 9 := by
      rcases max_choice 0 (long (s + y % 2 ^ 32 / 10 ^ 9) : ℤ) with hc | hc
      · omega
      · rw [← hc, heq]
    rw [val_long] at hlong
    have hwhole : y % 2 ^ 32 / 10 ^ 9 = y / 10 ^ 9 := by
      generalize y % 2 ^ 32 / 10 ^ 9 = q at *
      generalize hz : y / 10 ^ 9 = z at *
      have hz' : -1100 ≤ z ∧ z ≤ 1100 := by omega
      clear hz
      omega
    -- a part above the word would count at least 4, and what is left of it counts 0
    omega
  · rintro ⟨hlo, hhi⟩
    rw [Int.emod_eq_of_lt hlo hhi, long_of_fits (by omega), max_eq_right (by omega)]

section
variable (now time : Timespec)

theorem nanos_range : -2 ^ 32 ≤ nanos now time ∧ nanos now time ≤ 2 ^ 33 := by
  have hn := now.tvNsec.2
  have ht := time.tvNsec.2
  unfold nanos borrow
  split_ifs <;> omega

theorem ns_sub : time.ns - now.ns = seconds now time * 10 ^ 9 + nanos now time := by
  unfold Timespec.ns seconds nanos
  ring

/-- The code's difference is the seconds and the nanoseconds, up to words. -/
theorem ticksOf_difference : ticksOf (difference now time) =
    long (seconds now time * 100 + nanos now time * 100 % 2 ^ 32 / 10 ^ 9) := by
  have hwords : ((difference now time).1 : ℤ) ≡ seconds now time [ZMOD 2 ^ 32] ∧
      ((difference now time).2 : ℤ) ≡ nanos now time [ZMOD 2 ^ 32] := by
    unfold difference seconds nanos borrow
    by_cases h : (long (time.tvNsec - now.tvNsec) : ℤ) < 0
    · rw [if_pos h, if_pos h, show (time.tvNsec : ℤ) - now.tvNsec + 1 * 10 ^ 9 =
        nanosecondPerSecond - (now.tvNsec - time.tvNsec) by rw [nanosecondPerSecond]; ring]
      exact ⟨long_modEq _, long_modEq _⟩
    · rw [if_neg h, if_neg h, sub_zero, zero_mul, add_zero]
      exact ⟨long_modEq _, long_modEq _⟩
  obtain ⟨hsec, hnsec⟩ := hwords
  rw [ticksOf, (hnsec.mul_right rtTickPerSecond).eq]
  exact congrArg _ (long_congr ((hsec.mul_right rtTickPerSecond).add_right _))

theorem ticksUntil_eq :
    ticksUntil now time = max 0 (seconds now time * 100 + nanos now time * 100 / 10 ^ 9) := by
  rw [ticksUntil, ns_sub]
  congr 1
  omega

/-- The code counts the ticks, if there is an `int` for them, where `CountsRight` says. -/
theorem ticksOf_iff (h : ticksUntil now time < 2 ^ 31) :
    max 0 (ticksOf (difference now time)) = ticksUntil now time ↔ CountsRight now time := by
  rw [ticksUntil_eq] at h
  rw [ticksOf_difference, ticksUntil_eq, CountsRight, ns_sub]
  by_cases hdue : (seconds now time * 10 ^ 9 + nanos now time) * 100 < 10 ^ 9
  · -- nothing is left, and the code finds nothing if its count is not positive
    have hnone : seconds now time * 100 + nanos now time * 100 / 10 ^ 9 ≤ 0 := by omega
    rw [if_pos hdue, max_eq_left hnone, max_eq_left_iff, long_nonpos_iff]
  · have hsome : 1 ≤ seconds now time * 100 + nanos now time * 100 / 10 ^ 9 := by omega
    rw [if_neg hdue, max_eq_right (by omega : 0 ≤ seconds now time * 100 + _)]
    rw [max_eq_right (by omega)] at h
    have hnanos := nanos_range now time
    rw [counted_iff (by omega) hsome h]
    constructor <;> rintro ⟨hlo, hhi⟩ <;> exact ⟨by omega, hhi⟩

end

theorem timeToTick_eq (c : Clock) (now : RtTick) (time : Timespec) :
    c.timeToTick now (some time) = max 0 (ticksOf (difference (c.reading now) time)) := by
  show (if ticksOf _ < 0 then 0 else ticksOf _) = _
  split_ifs with hneg
  · rw [max_eq_left hneg.le]
  · rw [max_eq_right (not_lt.1 hneg)]

/-- INCORRECT: after every history the clock reads wrong. A reading has proper nanoseconds exactly where
    what is stored and the ticks of the second, counted as nanoseconds a thousand times, are below
    10^9 in a word. In every second there is a tick where they are not, and two ticks, one after the
    other, with the nanoseconds falling in the same second. The ticks until a time are counted as
    `CountsRight` says. -/
theorem clock_reads_iff (rtc : Option Long) (boot : RtTick) (calls : List Call) :
    (∀ tick tp,
      (history rtc boot calls).gettime tick clockRealtime (some tp) =
        (.ok, some ((history rtc boot calls).reading tick)) ∧
      (((history rtc boot calls).reading tick).Proper ↔
        (((history rtc boot calls).timevalue.tvUsec : ℤ) * 1000 + tick.val % 100 * 10 ^ 10) % 2 ^ 32 <
          10 ^ 9)) ∧
    (∀ q, 100 * q + 2 < 2 ^ 32 →
      (∃ tick : RtTick, tick.val / 100 = q ∧ ¬ ((history rtc boot calls).reading tick).Proper) ∧
      ∃ t u : RtTick, u.val = t.val + 1 ∧ t.val / 100 = q ∧ u.val / 100 = q ∧
        ((history rtc boot calls).reading u).tvSec = ((history rtc boot calls).reading t).tvSec ∧
        (((history rtc boot calls).reading u).tvNsec : ℤ) <
          ((history rtc boot calls).reading t).tvNsec) ∧
    ∀ now time, ticksUntil ((history rtc boot calls).reading now) time < 2 ^ 31 →
      ((history rtc boot calls).timeToTick now (some time) =
          ticksUntil ((history rtc boot calls).reading now) time ↔
        CountsRight ((history rtc boot calls).reading now) time) := by
  have hstored := history_stored rtc boot calls
  refine ⟨fun tick _ => ⟨rfl, proper_iff _ tick⟩, fun q hq => ?_, fun now time hfits => ?_⟩
  · have hlt : 100 * q < 2 ^ 32 ∧ 100 * q + 1 < 2 ^ 32 := by omega
    have hsec : 100 * q / 100 = q ∧ (100 * q + 1) / 100 = q ∧ (100 * q + 2) / 100 = q := by omega
    have hsecond : (100 * q + 1) % 100 = 1 := by omega
    refine ⟨⟨⟨100 * q + 1, hlt.2⟩, hsec.2.1, not_proper hstored hsecond⟩, ?_⟩
    rcases falls hstored ⟨100 * q, hlt.1⟩ ⟨100 * q + 1, hlt.2⟩ ⟨100 * q + 2, hq⟩
      (Nat.mul_mod_right 100 q) rfl rfl with hfall | hfall
    · exact ⟨_, _, rfl, hsec.1, hsec.2.1, tvSec_eq _ (hsec.2.1.trans hsec.1.symm), hfall⟩
    · exact ⟨_, _, rfl, hsec.2.1, hsec.2.2, tvSec_eq _ (hsec.2.2.trans hsec.2.1.symm), hfall⟩
  · rw [timeToTick_eq]
    exact ticksOf_iff _ _ hfits

/-- The first second after a start, and 40 milliseconds from tick 0, which are 4 ticks. -/
theorem clock_reads_start :
    (∃ tick : RtTick, tick.val / 100 = 0 ∧ ¬ ((history none 0 []).reading tick).Proper) ∧
    ((history none 0 []).timeToTick 0 (some ⟨long (-1), long 40000000⟩) = 4 ↔
      CountsRight ((history none 0 []).reading 0) ⟨long (-1), long 40000000⟩) :=
  ⟨((clock_reads_iff none 0 []).2.1 0 (by decide)).1, (clock_reads_iff none 0 []).2.2 0 _ (by decide)⟩

/-- Started at tick 0 without an RTC: at tick 1 there are 1410065408 nanoseconds, at tick 2 they are
    negative, and half a second from tick 0 is 2 ticks and not 50. -/
theorem clock_reads_wrong :
    (((history none 0 []).reading 1).tvNsec : ℤ) = 1410065408 ∧
    ¬ ((history none 0 []).reading 1).Proper ∧
    ((history none 0 []).reading 2).ns < ((history none 0 []).reading 1).ns ∧
    (history none 0 []).timeToTick 0 (some ⟨long (-1), long 500000000⟩) = 2 ∧
    ticksUntil ((history none 0 []).reading 0) ⟨long (-1), long 500000000⟩ = 50 := by
  decide

end EasyCore.ClockTime
