import Mathlib

/-! RTC alarms (`components/drivers/rtc/alarm.c`).

    The alarms are in one list, and the hardware has one alarm: it is programmed for one of them, the
    current one. The second of the day is 32 bits wide, and a distance is a signed difference.

        create ──▶ in the list ──start──▶ started ──update──▶ current, programmed
                                                    start ──▶ -/

namespace EasyCore.Alarm
open Function

/-- `struct tm`, the fields that alarms use. -/
structure Tm where
  sec : ℤ
  min : ℤ
  hour : ℤ
  mday : ℤ
  mon : ℤ
  year : ℤ
  wday : ℤ

/-- The time of day is one. -/
def Tm.Timed (t : Tm) : Prop :=
  (0 ≤ t.sec ∧ t.sec ≤ 59) ∧ (0 ≤ t.min ∧ t.min ≤ 59) ∧ (0 ≤ t.hour ∧ t.hour ≤ 23)

instance (t : Tm) : Decidable t.Timed := inferInstanceAs (Decidable (_ ∧ _))

/-- What `localtime_r` reads from the clock. -/
structure Clock extends Tm where
  timed : toTm.Timed

/-- `alarm_mkdaysec`. -/
def alarmMkdaysec (time : Tm) : UInt32 :=
  UInt32.ofInt time.sec + UInt32.ofInt (time.min * 60) + UInt32.ofInt (time.hour * 3600)

/-- `RT_ALARM_ONESHOT` and so on. -/
def rtAlarmOneshot : UInt32 := 0x000
def rtAlarmDaily : UInt32 := 0x100
def rtAlarmWeekly : UInt32 := 0x200
def rtAlarmMonthly : UInt32 := 0x400
def rtAlarmYearly : UInt32 := 0x800

/-- `RT_ALARM_DELAY`. -/
def rtAlarmDelay : ℕ := 2

/-- `RT_ALARM_TM_NOW`. -/
def rtAlarmTmNow : ℤ := -1

/-- `RT_RTC_YEARS_MAX`. -/
def rtRtcYearsMax : ℤ := 137

/-- `struct rt_alarm`: its flag is the kind (`flag & 0xFF00`), `RT_ALARM_STATE_INITED` and
    `RT_ALARM_STATE_START`; of the callback, if there is one. -/
structure RtAlarm where
  kind : UInt32
  inited : Bool
  started : Bool
  callback : Bool
  wktime : Tm

/-- `struct rt_rtc_wkalarm`. -/
structure Wkalarm where
  enable : Bool
  sec : ℤ
  min : ℤ
  hour : ℤ
  deriving DecidableEq

/-- `struct rt_alarm_setup`. -/
structure Setup where
  flag : UInt32
  wktime : Tm

/-- `struct rt_alarm_container`, the alarms in memory, the alarm of the hardware, and the callbacks
    made. -/
structure Rtc where
  head : List ℕ
  alarm : ℕ → RtAlarm
  current : Option ℕ
  wkalarm : Wkalarm
  calls : List ℕ

/-- `RT_EOK` and `RT_ERROR`. -/
inductive Ret
  | eok
  | error
  deriving DecidableEq

def Rtc.put (s : Rtc) (i : ℕ) (alarm : RtAlarm) : Rtc :=
  { s with alarm := update s.alarm i alarm }

/-- What `alarm_set` hands to the device. -/
def RtAlarm.toWkalarm (alarm : RtAlarm) : Wkalarm where
  enable := alarm.started
  sec := alarm.wktime.sec
  min := alarm.wktime.min
  hour := alarm.wktime.hour

/-- `alarm_set`; the device is there, takes each alarm and reads it back to the second. -/
def alarmSet (s : Rtc) (i : ℕ) : Rtc := { s with wkalarm := (s.alarm i).toWkalarm }

/-! ### Alarms that have come up -/

variable (mktime : Tm → UInt32)

/-- The time of an alarm is not more than `RT_ALARM_DELAY` ago. -/
def delayed (secNow secAlarm : UInt32) : Bool := secNow - secAlarm ≤ UInt32.ofNat rtAlarmDelay

/-- The `switch` of `alarm_wakeup`: if an alarm that is started wakes up. `mktime` leaves a valid time
    of day alone. -/
def wakes (now : Tm) (alarm : RtAlarm) : Bool :=
  let secAlarm := alarmMkdaysec alarm.wktime
  let secNow := alarmMkdaysec now
  if alarm.kind = rtAlarmOneshot then
    delayed (mktime now) (mktime alarm.wktime) && mktime now ≥ mktime alarm.wktime
  else if alarm.kind = rtAlarmDaily then
    delayed secNow secAlarm && secNow ≥ secAlarm
  else if alarm.kind = rtAlarmWeekly then
    let secAlarm := secAlarm + UInt32.ofInt (alarm.wktime.wday * 24 * 3600)
    let secNow := secNow + UInt32.ofInt (now.wday * 24 * 3600)
    delayed secNow secAlarm && secNow ≥ secAlarm
  else if alarm.kind = rtAlarmMonthly then
    alarm.wktime.mday = now.mday && delayed secNow secAlarm
  else if alarm.kind = rtAlarmYearly then
    alarm.wktime.mday = now.mday && alarm.wktime.mon = now.mon && delayed secNow secAlarm
  else false

/-- A one-shot alarm is over. -/
def overtime (now : Tm) (alarm : RtAlarm) : Bool :=
  alarm.started && alarm.kind = rtAlarmOneshot && wakes mktime now alarm

def RtAlarm.stop (alarm : RtAlarm) : RtAlarm := { alarm with started := false }

/-- `alarm_wakeup`; a callback leaves the alarms alone. -/
def alarmWakeup (now : Tm) (s : Rtc) (i : ℕ) : Rtc :=
  let alarm := s.alarm i
  if alarm.started && wakes mktime now alarm then
    let s := if alarm.kind = rtAlarmOneshot then alarmSet (s.put i alarm.stop) i else s
    if alarm.callback then { s with calls := s.calls ++ [i] } else s
  else s

/-- The first loop of `alarm_update`. -/
def wakeAll (now : Tm) (s : Rtc) : Rtc := s.head.foldl (alarmWakeup mktime now) s

/-! ### The next alarm -/

/-- `sec_next`, `alm_next`, `sec_prev` and `alm_prev`. -/
structure Scan where
  secNext : Int32 := 24 * 3600
  almNext : Option ℕ := none
  secPrev : Int32 := 0
  almPrev : Option ℕ := none

/-- The second loop of `alarm_update`, for one alarm. -/
def scanStep (s : Rtc) (now : Tm) (m : Scan) (i : ℕ) : Scan :=
  if (s.alarm i).started && s.current ≠ some i then
    let secTmp := (alarmMkdaysec (s.alarm i).wktime).toInt32 - (alarmMkdaysec now).toInt32
    if 0 < secTmp then
      if secTmp < m.secNext then { m with secNext := secTmp, almNext := some i } else m
    else if secTmp < m.secPrev then { m with secPrev := secTmp, almPrev := some i } else m
  else m

def scan (s : Rtc) (now : Tm) : Scan := s.head.foldl (scanStep s now) {}

/-- The alarm that is enabled: one after now first. -/
def Scan.pick (m : Scan) : Option ℕ :=
  if m.secNext < 24 * 3600 then m.almNext else if m.secPrev < 0 then m.almPrev else none

/-- `alarm_update`; it reads the clock twice. -/
def alarmUpdate (wakeAt now : Tm) (s : Rtc) : Rtc :=
  if s.head = [] then s
  else
    let s := wakeAll mktime wakeAt s
    match (scan s now).pick with
    | some i => { alarmSet s i with current := some i }
    | none => s

/-! ### Setting up an alarm -/

/-- `days_of_year_month`. -/
def daysOfYearMonth (tmYear tmMon : ℤ) : ℤ :=
  let year := tmYear + 1900
  if tmMon = 1 then
    28 + if (year % 4 = 0 ∧ year % 100 ≠ 0) ∨ year % 400 = 0 then 1 else 0
  else if (tmMon ≤ 6 ∧ tmMon % 2 = 0) ∨ (6 < tmMon ∧ tmMon % 2 = 1) then 31
  else 30

/-- `is_valid_date`. -/
def isValidDate (date : Tm) : Bool :=
  if date.year < 0 ∨ rtRtcYearsMax < date.year then false
  else if date.mon < 0 ∨ 11 < date.mon then false
  else if date.mday < 1 ∨ daysOfYearMonth date.year date.mon < date.mday then false
  else true

/-- A "don't care" value is set to now. -/
def careRange (lo hi now x : ℤ) : ℤ := if hi < x ∨ x < lo then now else x

def careNow (now x : ℤ) : ℤ := if x = rtAlarmTmNow then now else x

/-- The `switch` of `alarm_setup`: the date, and if the alarm can be set up. -/
def setupDate (kind : UInt32) (now setup : Tm) : Tm × Ret :=
  if kind = rtAlarmDaily then (setup, .eok)
  else if kind = rtAlarmOneshot then
    let setup :=
      { setup with
        year := careNow now.year setup.year
        mon := careNow now.mon setup.mon
        mday := careNow now.mday setup.mday }
    (setup, if isValidDate setup then .eok else .error)
  else if kind = rtAlarmWeekly then
    ({ setup with wday := careRange 0 6 now.wday setup.wday }, .eok)
  else if kind = rtAlarmMonthly then
    ({ setup with mday := careRange 1 31 now.mday setup.mday }, .eok)
  else if kind = rtAlarmYearly then
    let mon := careRange 0 11 now.mon setup.mon
    let days :=
      if mon = 1 then 29
      else if (mon ≤ 6 ∧ mon % 2 = 0) ∨ (6 < mon ∧ mon % 2 = 1) then 31
      else 30
    ({ setup with mon := mon, mday := careRange 1 days now.mday setup.mday }, .eok)
  else (setup, .error)

/-- For insurance purposes: an alarm at the last second of the day comes two seconds ahead. -/
def aheadOfMidnight (setup : Tm) : Tm :=
  if setup.hour = 23 ∧ setup.min = 59 ∧ setup.sec = 59 then
    { setup with sec := 60 - rtAlarmDelay }
  else setup

/-- `alarm_setup`. -/
def alarmSetup (now : Tm) (alarm : RtAlarm) (wktime : Tm) : RtAlarm × Ret :=
  let setup :=
    { wktime with
      sec := careRange 0 59 now.sec wktime.sec
      min := careRange 0 59 now.min wktime.min
      hour := careRange 0 23 now.hour wktime.hour }
  match setupDate alarm.kind now setup with
  | (setup, .eok) => ({ alarm with wktime := aheadOfMidnight setup, inited := true }, .eok)
  | (setup, .error) => ({ alarm with wktime := setup }, .error)

/-! ### The calls -/

/-- The comparisons of `rt_alarm_start`. -/
def sooner (secNow secOld secNew : Int32) : Bool :=
  secNew < secOld && secNew > secNow || secNew > secNow && secOld < secNow ||
    secNew < secOld && secOld < secNow

/-- An alarm that is started is programmed. -/
def replaces (s : Rtc) (now : Tm) (i : ℕ) : Bool :=
  match s.current with
  | none => true
  | some c =>
    sooner (alarmMkdaysec now).toInt32 (alarmMkdaysec (s.alarm c).wktime).toInt32
      (alarmMkdaysec (s.alarm i).wktime).toInt32

/-- What `rt_alarm_start` sets up, if the alarm has not been. -/
def initAlarm (setupAt : Tm) (alarm : RtAlarm) : RtAlarm × Ret :=
  if alarm.inited then (alarm, .eok) else alarmSetup setupAt alarm alarm.wktime

/-- `rt_alarm_start`. -/
def rtAlarmStart (setupAt now : Tm) (i : ℕ) (s : Rtc) : Rtc × Ret :=
  let (alarm, ret) := initAlarm setupAt (s.alarm i)
  if ret ≠ .eok ∨ alarm.started then (s.put i alarm, .error)
  else
    let s := s.put i { alarm with started := true }
    if replaces s now i then ({ alarmSet s i with current := some i }, .eok) else (s, .eok)

/-- `rt_alarm_stop`. -/
def rtAlarmStop (wakeAt now : Tm) (i : ℕ) (s : Rtc) : Rtc × Ret :=
  if ¬(s.alarm i).started then (s, .error)
  else
    let s := s.put i (s.alarm i).stop
    if s.current = some i then
      (alarmUpdate mktime wakeAt now { alarmSet s i with current := none }, .eok)
    else (s, .error)

/-- `rt_alarm_control` with `RT_ALARM_CTRL_MODIFY`. -/
def rtAlarmModify (setupAt wakeAt now : Tm) (setup : Setup) (i : ℕ) (s : Rtc) : Rtc × Ret :=
  let s := (rtAlarmStop mktime wakeAt now i s).1
  let alarm :=
    { s.alarm i with
      kind := setup.flag &&& 0xFF00
      inited := false
      started := false
      wktime := setup.wktime }
  let (alarm, ret) := alarmSetup setupAt alarm alarm.wktime
  (s.put i alarm, ret)

/-- `rt_alarm_delete`. -/
def rtAlarmDelete (wakeAt now : Tm) (i : ℕ) (s : Rtc) : Rtc × Ret :=
  let s := s.put i (s.alarm i).stop
  let (s, ret) :=
    if s.current = some i then
      (alarmUpdate mktime wakeAt now { alarmSet s i with current := none }, .eok)
    else (s, .error)
  ({ s with head := s.head.filter (· ≠ i) }, ret)

/-- `rt_alarm_create`, the alarm in the memory `i` of `rt_malloc`. -/
def rtAlarmCreate (callback : Bool) (setup : Setup) (i : ℕ) (s : Rtc) : Rtc :=
  { s.put i
      { kind := setup.flag &&& 0xFF00
        inited := false
        started := false
        callback := callback
        wktime := setup.wktime } with
    head := i :: s.head }

/-! ### Runs -/

inductive Op
  | create (i : ℕ) (callback : Bool) (setup : Setup)
  | start (i : ℕ)
  | stop (i : ℕ)
  | modify (i : ℕ) (setup : Setup)
  | delete (i : ℕ)
  | update

/-- A call, or an alarm event, and what it reads from the clock: in `alarm_setup`, before the first
    loop of `alarm_update`, and last. -/
structure Event where
  op : Op
  setupAt : Clock
  wakeAt : Clock
  now : Clock

/-- `rt_malloc` gives no memory twice, and a call is made with an alarm that has been created. -/
def step (s : Rtc) (e : Event) : Rtc :=
  match e.op with
  | .create i callback setup => if i ∈ s.head then s else rtAlarmCreate callback setup i s
  | .start i => if i ∈ s.head then (rtAlarmStart e.setupAt.toTm e.now.toTm i s).1 else s
  | .stop i => if i ∈ s.head then (rtAlarmStop mktime e.wakeAt.toTm e.now.toTm i s).1 else s
  | .modify i setup =>
    if i ∈ s.head then
      (rtAlarmModify mktime e.setupAt.toTm e.wakeAt.toTm e.now.toTm setup i s).1
    else s
  | .delete i => if i ∈ s.head then (rtAlarmDelete mktime e.wakeAt.toTm e.now.toTm i s).1 else s
  | .update => alarmUpdate mktime e.wakeAt.toTm e.now.toTm s

/-- Midnight of the first of January. -/
def Tm.zero : Tm := ⟨0, 0, 0, 1, 0, 0, 0⟩

/-- After `rt_alarm_system_init`. -/
def start : Rtc where
  head := []
  alarm _ := ⟨0, false, false, false, .zero⟩
  current := none
  wkalarm := ⟨false, 0, 0, 0⟩
  calls := []

/-! ### Seconds of the day -/

/-- The second of the day. -/
def daysec (t : Tm) : ℕ := (alarmMkdaysec t).toNat

theorem toNat_ofInt {z : ℤ} (h0 : 0 ≤ z) (h : z < 2 ^ 32) : (UInt32.ofInt z).toNat = z.toNat := by
  rw [UInt32.ofInt, UInt32.toNat_ofNat']
  omega

/-- A day has 86400 seconds. -/
theorem daysec_lt {t : Tm} (ht : t.Timed) : daysec t < 86400 := by
  obtain ⟨⟨hs, hs'⟩, ⟨hm, hm'⟩, ⟨hh, hh'⟩⟩ := ht
  rw [daysec, alarmMkdaysec]
  simp only [UInt32.toNat_add]
  rw [toNat_ofInt hs (by omega), toNat_ofInt (by omega) (by omega),
    toNat_ofInt (by omega) (by omega)]
  have hsec : t.sec.toNat ≤ 59 := by omega
  have hmin : (t.min * 60).toNat ≤ 59 * 60 := by omega
  have hhour : (t.hour * 3600).toNat ≤ 23 * 3600 := by omega
  generalize t.sec.toNat = a, (t.min * 60).toNat = b, (t.hour * 3600).toNat = c at hsec hmin hhour ⊢
  omega

theorem toInt_toInt32 {x : UInt32} (h : x.toNat < 86400) : x.toInt32.toInt = x.toNat := by
  have hlt : 2 * x.toBitVec.toNat < 2 ^ 32 := by
    rw [UInt32.toNat_toBitVec]
    omega
  exact BitVec.toInt_eq_toNat_of_lt hlt

/-- The signed difference is the difference. -/
theorem toInt_secTmp {t now : Tm} (ht : t.Timed) (hnow : now.Timed) :
    ((alarmMkdaysec t).toInt32 - (alarmMkdaysec now).toInt32).toInt =
      (daysec t : ℤ) - daysec now := by
  have ht := daysec_lt ht
  have hnow := daysec_lt hnow
  rw [Int32.toInt_sub, toInt_toInt32 ht, toInt_toInt32 hnow]
  simp only [daysec] at *
  rw [Int.bmod_eq_of_le] <;> omega

/-! ### Putting an alarm -/

@[simp] theorem put_head (s : Rtc) (i : ℕ) (alarm : RtAlarm) : (s.put i alarm).head = s.head := rfl

@[simp] theorem put_current (s : Rtc) (i : ℕ) (alarm : RtAlarm) :
    (s.put i alarm).current = s.current := rfl

@[simp] theorem put_wkalarm (s : Rtc) (i : ℕ) (alarm : RtAlarm) :
    (s.put i alarm).wkalarm = s.wkalarm := rfl

@[simp] theorem put_alarm (s : Rtc) (i : ℕ) (alarm : RtAlarm) :
    (s.put i alarm).alarm i = alarm := update_self ..

theorem put_other (s : Rtc) {i j : ℕ} (alarm : RtAlarm) (h : j ≠ i) :
    (s.put i alarm).alarm j = s.alarm j := update_of_ne h ..

theorem put_same (s : Rtc) (i : ℕ) : s.put i (s.alarm i) = s := by
  rw [Rtc.put, update_eq_self]

/-! ### The invariant -/

/-- What has been set up has a time of day, and what is started has been set up. -/
def RtAlarm.Ready (alarm : RtAlarm) : Prop :=
  (alarm.inited = true → alarm.wktime.Timed) ∧ (alarm.started = true → alarm.inited = true)

/-- Each alarm is ready, and when the hardware alarm is enabled it is programmed for the current alarm,
    which is started. -/
structure Inv (s : Rtc) : Prop where
  ready : ∀ i ∈ s.head, (s.alarm i).Ready
  enabled : s.wkalarm.enable = true → ∃ c ∈ s.head, s.current = some c ∧
    (s.alarm c).started = true ∧ s.wkalarm = (s.alarm c).toWkalarm

variable {s : Rtc} {i : ℕ} {alarm : RtAlarm} {now wakeAt setupAt : Tm}

theorem Inv.timed (inv : Inv s) (hi : i ∈ s.head) (h : (s.alarm i).started = true) :
    (s.alarm i).wktime.Timed :=
  (inv.ready i hi).1 ((inv.ready i hi).2 h)

/-- The current alarm is started, while the hardware alarm is enabled. -/
theorem Inv.started_current (inv : Inv s) (hen : s.wkalarm.enable = true)
    (hcur : s.current = some i) : (s.alarm i).started = true := by
  obtain ⟨c, -, hc, hstarted, -⟩ := inv.enabled hen
  obtain rfl : c = i := Option.some_inj.1 (hc.symm.trans hcur)
  exact hstarted

theorem inv_start : Inv start where
  ready := by simp [start]
  enabled h := absurd h (by decide)

theorem ready_put (hs : ∀ j ∈ s.head, (s.alarm j).Ready) (halarm : alarm.Ready) :
    ∀ j ∈ (s.put i alarm).head, ((s.put i alarm).alarm j).Ready := by
  intro j hj
  rcases eq_or_ne j i with rfl | hne
  · rwa [put_alarm]
  · rw [put_other s alarm hne]
    exact hs j hj

/-- An alarm that is not the one programmed may be changed. -/
theorem Inv.put (inv : Inv s) (halarm : alarm.Ready)
    (hcur : s.wkalarm.enable = true → s.current ≠ some i) : Inv (s.put i alarm) where
  ready := ready_put inv.ready halarm
  enabled := by
    intro hen
    obtain ⟨c, hc, hcurrent, hstarted, hw⟩ := inv.enabled hen
    have hne : c ≠ i := fun heq => hcur hen (heq ▸ hcurrent)
    refine ⟨c, hc, hcurrent, ?_, ?_⟩
    · rwa [put_other s alarm hne]
    · rwa [put_other s alarm hne]

theorem Inv.put_stopped (inv : Inv s) (halarm : alarm.Ready)
    (hstopped : (s.alarm i).started = false) : Inv (s.put i alarm) := by
  refine inv.put halarm fun hen hcur => ?_
  rw [inv.started_current hen hcur] at hstopped
  exact Bool.noConfusion hstopped

/-- The current alarm is programmed. -/
theorem inv_alarmSet (hready : ∀ j ∈ s.head, (s.alarm j).Ready) (hi : i ∈ s.head)
    (hstarted : (s.alarm i).started = true) : Inv { alarmSet s i with current := some i } where
  ready := hready
  enabled _ := ⟨i, hi, rfl, hstarted, rfl⟩

theorem ready_stop (h : alarm.Ready) : alarm.stop.Ready := ⟨h.1, Bool.noConfusion⟩

/-! ### The first loop of an update -/

/-- What the first loop of `alarm_update` has done with the alarms of `l`: those that are over have
    been stopped, and the hardware alarm with them. -/
structure Woken (now : Tm) (l : List ℕ) (s s' : Rtc) : Prop where
  head : s'.head = s.head
  current : s'.current = s.current
  alarm : ∀ j, s'.alarm j =
    if j ∈ l ∧ overtime mktime now (s.alarm j) = true then (s.alarm j).stop else s.alarm j
  same : (∀ i ∈ l, overtime mktime now (s.alarm i) = false) → s'.wkalarm = s.wkalarm
  disabled : (∃ i ∈ l, overtime mktime now (s.alarm i) = true) → s'.wkalarm.enable = false

theorem overtime_stop (now : Tm) (alarm : RtAlarm) : overtime mktime now alarm.stop = false := rfl

/-- What is done with one alarm. -/
theorem alarmWakeup_eq (now : Tm) (s : Rtc) (i : ℕ) : ∃ calls, alarmWakeup mktime now s i =
    { (if overtime mktime now (s.alarm i) then alarmSet (s.put i (s.alarm i).stop) i else s) with
      calls := calls } := by
  rcases hwakes : (s.alarm i).started && wakes mktime now (s.alarm i) with _ | _
  · have hover : overtime mktime now (s.alarm i) = false := by
      rw [overtime, Bool.and_right_comm, hwakes, Bool.false_and]
    exact ⟨s.calls, by simp [alarmWakeup, hwakes, hover]⟩
  have hover : overtime mktime now (s.alarm i) = decide ((s.alarm i).kind = rtAlarmOneshot) := by
    rw [overtime, Bool.and_right_comm, hwakes, Bool.true_and]
  simp only [alarmWakeup, hwakes, hover, decide_eq_true_eq, if_true]
  rcases (s.alarm i).callback with _ | _
  · exact ⟨_, rfl⟩
  · exact ⟨_, rfl⟩

theorem woken_step {l : List ℕ} {t : Rtc} (h : Woken mktime now l s t) (i : ℕ) :
    Woken mktime now (l ++ [i]) s (alarmWakeup mktime now t i) := by
  obtain ⟨calls, heq⟩ := alarmWakeup_eq mktime now t i
  have hi := h.alarm i
  rw [heq]
  cases hover : overtime mktime now (t.alarm i)
  · -- nothing is done: the alarm is not over, or has been stopped
    have hkept {j : ℕ} (hj : j ∈ l ++ [i]) (hs : overtime mktime now (s.alarm j) = true) :
        j ∈ l := by
      rcases List.mem_append.1 hj with hj | hj
      · exact hj
      · obtain rfl := List.mem_singleton.1 hj
        by_contra hnot
        rw [if_neg (fun h => hnot h.1)] at hi
        rw [hi, hs] at hover
        exact Bool.noConfusion hover
    refine ⟨h.head, h.current, fun j => ?_, fun hnone => h.same fun j hj => ?_, fun hsome => ?_⟩
    · refine (h.alarm j).trans (if_congr ⟨?_, ?_⟩ rfl rfl)
      · rintro ⟨hj, hs⟩
        exact ⟨List.mem_append_left _ hj, hs⟩
      · rintro ⟨hj, hs⟩
        exact ⟨hkept hj hs, hs⟩
    · exact hnone j (List.mem_append_left _ hj)
    · obtain ⟨j, hj, hs⟩ := hsome
      exact h.disabled ⟨j, hkept hj hs, hs⟩
  · -- the alarm is over: it has not been stopped
    have hnot : ¬(i ∈ l ∧ overtime mktime now (s.alarm i) = true) := by
      intro hin
      rw [if_pos hin] at hi
      rw [hi, overtime_stop] at hover
      exact Bool.noConfusion hover
    rw [if_neg hnot] at hi
    rw [hi] at hover
    refine ⟨h.head, h.current, fun j => ?_, fun hnone => ?_, fun _ => ?_⟩
    · simp only [if_true, alarmSet, Rtc.put]
      rcases eq_or_ne j i with rfl | hne
      · rw [update_self, if_pos ⟨by simp, hover⟩, hi]
      · rw [update_of_ne hne, h.alarm j]
        simp [hne]
    · rw [hnone i (by simp)] at hover
      exact Bool.noConfusion hover
    · simp [alarmSet, RtAlarm.toWkalarm, RtAlarm.stop]

theorem woken_wakeAll (now : Tm) (s : Rtc) :
    Woken mktime now s.head s (wakeAll mktime now s) := by
  rw [wakeAll]
  suffices h : ∀ l, Woken mktime now l s (l.foldl (alarmWakeup mktime now) s) from h s.head
  intro l
  induction l using List.reverseRecOn with
  | nil => exact ⟨rfl, rfl, by simp, fun _ => rfl, by simp⟩
  | append_singleton l i ih =>
    rw [List.foldl_append]
    exact woken_step mktime ih i

/-- While the hardware alarm is enabled, no alarm is over. -/
theorem Woken.quiet {l : List ℕ} {t : Rtc} (h : Woken mktime now l s t)
    (hen : t.wkalarm.enable = true) : ∀ i ∈ l, overtime mktime now (s.alarm i) = false := by
  intro i hi
  by_contra hover
  rw [h.disabled ⟨i, hi, by simpa using hover⟩] at hen
  exact Bool.noConfusion hen

theorem Inv.wakeAll (inv : Inv s) (now : Tm) : Inv (wakeAll mktime now s) := by
  have h := woken_wakeAll mktime now s
  constructor
  · intro i hi
    rw [h.head] at hi
    rw [h.alarm]
    split
    · exact ready_stop (inv.ready i hi)
    · exact inv.ready i hi
  · intro hen
    have hnone := h.quiet mktime hen
    rw [h.same hnone] at hen ⊢
    obtain ⟨c, hc, hcur, hstarted, hw⟩ := inv.enabled hen
    refine ⟨c, h.head ▸ hc, h.current.trans hcur, ?_, ?_⟩
    · rwa [h.alarm, if_neg (by simp [hnone c hc])]
    · rwa [h.alarm, if_neg (by simp [hnone c hc])]

end EasyCore.Alarm
