import EasyCore.Drivers.AlarmNext
import EasyCore.Lib.Runs

/-! Runs of the RTC alarms: after which calls and events the hardware is programmed for the nearest
    alarm.

        start ▶ the comparisons with the current alarm ▶ programmed, or the current one stays
        stop, delete ▶ the current alarm? ▶ update
        modify ▶ stop, set up again -/

namespace EasyCore.Alarm
open Function Runs

variable (mktime : Tm → UInt32)

/-! ### When a step programs the nearest alarm -/

/-- An alarm is stopped. -/
def Rtc.without (s : Rtc) (i : ℕ) : Rtc := s.put i (s.alarm i).stop

/-- The current alarm is stopped, and the hardware has none. -/
def Rtc.released (s : Rtc) (i : ℕ) : Rtc :=
  { alarmSet (s.without i) i with current := none }

/-- An alarm is stopped: there is an update if it is the current one. -/
def StopOk (s : Rtc) (wakeAt now : Tm) (i : ℕ) : Prop :=
  if s.current = some i then UpdateOk mktime (s.released i) wakeAt now else Stays (s.without i) now

/-- An alarm is started: if it is programmed it is the nearest one. -/
def StartOk (s : Rtc) (setupAt now : Tm) (i : ℕ) : Prop :=
  if (initAlarm setupAt (s.alarm i)).2 ≠ .eok ∨ (s.alarm i).started then Stays s now
  else
    let s := s.put i { (initAlarm setupAt (s.alarm i)).1 with started := true }
    if replaces s now i then Nearest s now i else Stays s now

/-- The condition of a step, on the state before it. -/
def EventOk (s : Rtc) (e : Event) : Prop :=
  match e.op with
  | .create _ _ _ => Stays s e.now.toTm
  | .start i => if i ∈ s.head then StartOk s e.setupAt.toTm e.now.toTm i else Stays s e.now.toTm
  | .stop i | .modify i _ =>
    if i ∈ s.started then StopOk mktime s e.wakeAt.toTm e.now.toTm i else Stays s e.now.toTm
  | .delete i =>
    if i ∈ s.head then StopOk mktime s e.wakeAt.toTm e.now.toTm i else Stays s e.now.toTm
  | .update => UpdateOk mktime s e.wakeAt.toTm e.now.toTm

/-! ### Setting up an alarm -/

variable {s : Rtc} {now wakeAt setupAt : Tm} {i : ℕ} {alarm : RtAlarm}

theorem careRange_mem {lo hi now x : ℤ} (hnow : lo ≤ now ∧ now ≤ hi) :
    lo ≤ careRange lo hi now x ∧ careRange lo hi now x ≤ hi := by
  rw [careRange]
  split
  · exact hnow
  · omega

/-- The date leaves the time of day alone. -/
theorem setupDate_timed (kind : UInt32) (now : Tm) {setup : Tm} (h : setup.Timed) :
    (setupDate kind now setup).1.Timed := by
  simp only [setupDate]
  split_ifs <;> exact h

theorem aheadOfMidnight_timed {setup : Tm} (h : setup.Timed) : (aheadOfMidnight setup).Timed := by
  rw [aheadOfMidnight]
  split
  · exact ⟨by simp [rtAlarmDelay], h.2⟩
  · exact h

/-- What is set up has a time of day, and is started if it was. -/
theorem alarmSetup_timed (hnow : now.Timed) (alarm : RtAlarm) (wktime : Tm) :
    (alarmSetup now alarm wktime).1.wktime.Timed := by
  have htimed (setup : Tm) : Tm.Timed
      { setup with
        sec := careRange 0 59 now.sec wktime.sec
        min := careRange 0 59 now.min wktime.min
        hour := careRange 0 23 now.hour wktime.hour } :=
    ⟨careRange_mem hnow.1, careRange_mem hnow.2.1, careRange_mem hnow.2.2⟩
  have hdate := setupDate_timed alarm.kind now (htimed wktime)
  simp only [alarmSetup]
  split
  · next heq =>
    rw [heq] at hdate
    exact aheadOfMidnight_timed hdate
  · next heq =>
    rw [heq] at hdate
    exact hdate

theorem alarmSetup_started (now : Tm) (alarm : RtAlarm) (wktime : Tm) :
    (alarmSetup now alarm wktime).1.started = alarm.started := by
  simp only [alarmSetup]
  split <;> rfl

theorem alarmSetup_inited (now : Tm) (alarm : RtAlarm) (wktime : Tm)
    (h : (alarmSetup now alarm wktime).2 = .eok) :
    (alarmSetup now alarm wktime).1.inited = true := by
  simp only [alarmSetup] at h ⊢
  split at h
  · rfl
  · exact absurd h (by simp)

theorem ready_alarmSetup (hnow : now.Timed) (wktime : Tm) (h : alarm.started = false) :
    (alarmSetup now alarm wktime).1.Ready := by
  refine ⟨fun _ => alarmSetup_timed hnow alarm wktime, fun hstarted => ?_⟩
  rw [alarmSetup_started, h] at hstarted
  exact Bool.noConfusion hstarted

/-- Before it is started an alarm is ready; one that is started has been set up. -/
theorem initAlarm_ready (hnow : now.Timed) (h : alarm.Ready) :
    (initAlarm now alarm).1.Ready ∧ (initAlarm now alarm).1.started = alarm.started ∧
      ((initAlarm now alarm).2 = .eok → (initAlarm now alarm).1.inited = true) ∧
      (alarm.started = true → (initAlarm now alarm).1 = alarm) := by
  rw [initAlarm]
  split
  · next hinited => exact ⟨h, rfl, fun _ => hinited, fun _ => rfl⟩
  · next hinited =>
    have hstopped : alarm.started = false := by
      by_contra hstarted
      exact hinited (h.2 (by simpa using hstarted))
    refine ⟨ready_alarmSetup hnow _ hstopped, alarmSetup_started ..,
      alarmSetup_inited _ _ _, ?_⟩
    rw [hstopped]
    exact fun h => Bool.noConfusion h

/-! ### Starting and stopping an alarm -/

/-- An alarm that is not started, before and after, does not matter. -/
theorem started_put (halarm : alarm.started = (s.alarm i).started) :
    (s.put i alarm).started = s.started := by
  rw [Rtc.started, Rtc.started, put_head]
  refine List.filter_congr fun j _ => ?_
  rcases eq_or_ne j i with rfl | hne
  · rw [put_alarm, halarm]
  · rw [put_other s alarm hne]

theorem programmed_put (hs : (s.alarm i).started = false) (halarm : alarm.started = false) :
    Programmed (s.put i alarm) now ↔ Programmed s now := by
  refine programmed_congr (started_put (halarm.trans hs.symm)) (fun j hj => ?_) rfl
  rcases eq_or_ne j i with rfl | hne
  · rw [(mem_started.1 hj).2] at hs
    exact Bool.noConfusion hs
  · rw [put_other s alarm hne]

/-- `rt_alarm_start`. -/
theorem start_spec (inv : Inv s) (hi : i ∈ s.head) (hsetup : setupAt.Timed) :
    Inv (rtAlarmStart setupAt now i s).1 ∧
      (Programmed (rtAlarmStart setupAt now i s).1 now ↔ StartOk s setupAt now i) := by
  obtain ⟨hready, hstarted, hinited, hsame⟩ := initAlarm_ready hsetup (inv.ready i hi)
  simp only [rtAlarmStart, StartOk, hstarted]
  generalize initAlarm setupAt (s.alarm i) = init at hready hstarted hinited hsame ⊢
  split
  · next hnot =>
    rcases hst : (s.alarm i).started with _ | _
    · have hprogrammed : Programmed (s.put i init.1) now ↔ Programmed s now :=
        programmed_put hst (hstarted.trans hst)
      exact ⟨inv.put_stopped hready hst, hprogrammed.trans (programmed_iff_stays inv)⟩
    · rw [hsame hst, put_same]
      exact ⟨inv, programmed_iff_stays inv⟩
  · next hok =>
    have hok := not_or.1 hok
    have hst : (s.alarm i).started = false := by simpa using hok.2
    have hinit : RtAlarm.Ready { init.1 with started := true } :=
      ⟨hready.1, fun _ => hinited (not_not.1 hok.1)⟩
    have invput := inv.put_stopped hinit hst
    split
    · have hnew : ((s.put i { init.1 with started := true }).alarm i).started = true := by
        rw [put_alarm]
      exact ⟨inv_alarmSet invput.ready hi hnew, programmed_alarmSet (mem_started.2 ⟨hi, hnew⟩)⟩
    · exact ⟨invput, programmed_iff_stays invput⟩

theorem inv_without (inv : Inv s) (hi : i ∈ s.head) (hcur : s.current ≠ some i) :
    Inv (s.without i) :=
  inv.put (ready_stop (inv.ready i hi)) fun _ => hcur

theorem inv_released (inv : Inv s) (hi : i ∈ s.head) : Inv (s.released i) where
  ready := ready_put inv.ready (ready_stop (inv.ready i hi))
  enabled h := by
    simp [Rtc.released, Rtc.without, alarmSet, RtAlarm.toWkalarm, RtAlarm.stop] at h

/-- An alarm is stopped, and if it is the current one there is an update. -/
def stopAlarm (wakeAt now : Tm) (s : Rtc) (i : ℕ) : Rtc :=
  if s.current = some i then alarmUpdate mktime wakeAt now (s.released i) else s.without i

theorem stopAlarm_spec (wakeAt : Tm) (inv : Inv s) (hi : i ∈ s.head) (hnow : now.Timed) :
    Inv (stopAlarm mktime wakeAt now s i) ∧
      (Programmed (stopAlarm mktime wakeAt now s i) now ↔ StopOk mktime s wakeAt now i) := by
  rw [stopAlarm, StopOk]
  split
  · have inv := inv_released inv hi
    exact ⟨inv.alarmUpdate mktime hnow, programmed_update mktime inv hnow⟩
  · next hcur =>
    have inv := inv_without inv hi hcur
    exact ⟨inv, programmed_iff_stays inv⟩

/-- An update starts no alarm. -/
theorem alarmUpdate_stopped (h : (s.alarm i).started = false) :
    ((alarmUpdate mktime wakeAt now s).alarm i).started = false := by
  have hwoken : ((wakeAll mktime wakeAt s).alarm i).started = false := by
    rw [(woken_wakeAll mktime wakeAt s).alarm]
    split
    · rfl
    · exact h
  rw [alarmUpdate]
  split
  · exact h
  · simp only
    split <;> exact hwoken

theorem stopAlarm_stopped :
    ((stopAlarm mktime wakeAt now s i).alarm i).started = false := by
  have hstop : ((s.without i).alarm i).started = false := by rw [Rtc.without, put_alarm]; rfl
  rw [stopAlarm]
  split
  · exact alarmUpdate_stopped mktime hstop
  · exact hstop

/-! ### Steps -/

theorem stop_eq : (rtAlarmStop mktime wakeAt now i s).1 =
    if (s.alarm i).started then stopAlarm mktime wakeAt now s i else s := by
  rw [rtAlarmStop, stopAlarm]
  rcases (s.alarm i).started with _ | _
  · rfl
  · rcases eq_or_ne s.current (some i) with hcur | hcur
    · have hput : (s.put i (s.alarm i).stop).current = some i := hcur
      simp only [not_true_eq_false, if_false, if_true, if_pos hcur, if_pos hput]
      rfl
    · have hput : (s.put i (s.alarm i).stop).current ≠ some i := hcur
      simp only [not_true_eq_false, if_false, if_true, if_neg hcur, if_neg hput]
      rfl

/-- `rt_alarm_stop`. -/
theorem stop_spec (wakeAt : Tm) (inv : Inv s) (hi : i ∈ s.head) (hnow : now.Timed) :
    Inv (rtAlarmStop mktime wakeAt now i s).1 ∧
      ((rtAlarmStop mktime wakeAt now i s).1.alarm i).started = false ∧
      (Programmed (rtAlarmStop mktime wakeAt now i s).1 now ↔
        if i ∈ s.started then StopOk mktime s wakeAt now i else Stays s now) := by
  rw [stop_eq]
  simp only [mem_started, hi, true_and]
  rcases hst : (s.alarm i).started with _ | _
  · exact ⟨inv, hst, programmed_iff_stays inv⟩
  · obtain ⟨inv, hok⟩ := stopAlarm_spec mktime wakeAt inv hi hnow
    exact ⟨inv, stopAlarm_stopped mktime, hok⟩

/-- `rt_alarm_control`: the alarm is stopped, and is set up again. -/
theorem modify_spec (inv : Inv s) (hi : i ∈ s.head) (hsetup : setupAt.Timed) (hnow : now.Timed)
    (setup : Setup) :
    Inv (rtAlarmModify mktime setupAt wakeAt now setup i s).1 ∧
      (Programmed (rtAlarmModify mktime setupAt wakeAt now setup i s).1 now ↔
        if i ∈ s.started then StopOk mktime s wakeAt now i else Stays s now) := by
  obtain ⟨inv, hst, hok⟩ := stop_spec mktime wakeAt inv hi hnow
  rw [← hok, rtAlarmModify]
  exact ⟨inv.put_stopped (ready_alarmSetup hsetup _ rfl) hst,
    programmed_put hst (alarmSetup_started ..)⟩

theorem delete_eq : (rtAlarmDelete mktime wakeAt now i s).1 =
    { stopAlarm mktime wakeAt now s i with
      head := (stopAlarm mktime wakeAt now s i).head.filter (· ≠ i) } := by
  rcases eq_or_ne s.current (some i) with hcur | hcur
  · have hput : (s.put i (s.alarm i).stop).current = some i := hcur
    simp only [rtAlarmDelete, stopAlarm, if_pos hcur, if_pos hput]
    rfl
  · have hput : (s.put i (s.alarm i).stop).current ≠ some i := hcur
    simp only [rtAlarmDelete, stopAlarm, if_neg hcur, if_neg hput]
    rfl

/-- An alarm that is not started is removed from the list. -/
theorem remove_spec (inv : Inv s) (hst : (s.alarm i).started = false) :
    Inv { s with head := s.head.filter (· ≠ i) } ∧
      (Programmed { s with head := s.head.filter (· ≠ i) } now ↔ Programmed s now) := by
  have hne {c : ℕ} (hc : (s.alarm c).started = true) : c ≠ i := by
    rintro rfl
    rw [hst] at hc
    exact Bool.noConfusion hc
  refine ⟨⟨fun j hj => inv.ready j (List.mem_filter.1 hj).1, fun hen => ?_⟩, ?_⟩
  · obtain ⟨c, hc, hcur, hstarted, hw⟩ := inv.enabled hen
    exact ⟨c, List.mem_filter.2 ⟨hc, by simpa using hne hstarted⟩, hcur, hstarted, hw⟩
  · refine programmed_congr ?_ (fun j _ => rfl) rfl
    rw [Rtc.started, List.filter_filter]
    refine List.filter_congr fun j _ => ?_
    rcases hj : (s.alarm j).started with _ | _
    · rfl
    · simpa using hne hj

/-- `rt_alarm_delete`. -/
theorem delete_spec (inv : Inv s) (hi : i ∈ s.head) (hnow : now.Timed) :
    Inv (rtAlarmDelete mktime wakeAt now i s).1 ∧
      (Programmed (rtAlarmDelete mktime wakeAt now i s).1 now ↔ StopOk mktime s wakeAt now i) := by
  obtain ⟨inv, hok⟩ := stopAlarm_spec mktime wakeAt inv hi hnow
  rw [← hok, delete_eq]
  exact remove_spec inv (stopAlarm_stopped mktime)

/-- `rt_alarm_create`: the new alarm is not started. -/
theorem create_spec (inv : Inv s) (hi : i ∉ s.head) (callback : Bool) (setup : Setup) :
    Inv (rtAlarmCreate callback setup i s) ∧
      (Programmed (rtAlarmCreate callback setup i s) now ↔ Stays s now) := by
  have hother {j : ℕ} (hj : j ∈ s.head) : (rtAlarmCreate callback setup i s).alarm j = s.alarm j :=
    put_other s _ fun heq => hi (heq ▸ hj)
  have hnew : ((rtAlarmCreate callback setup i s).alarm i).started = false := by
    rw [rtAlarmCreate, put_alarm]
  refine ⟨⟨fun j hj => ?_, fun hen => ?_⟩, ?_⟩
  · rcases List.mem_cons.1 hj with rfl | hj
    · rw [rtAlarmCreate, put_alarm]
      exact ⟨Bool.noConfusion, Bool.noConfusion⟩
    · rw [hother hj]
      exact inv.ready j hj
  · obtain ⟨c, hc, hcur, hstarted, hw⟩ := inv.enabled hen
    exact ⟨c, List.mem_cons_of_mem _ hc, hcur, by rwa [hother hc], by rwa [hother hc]⟩
  · rw [← programmed_iff_stays inv]
    refine programmed_congr ?_ (fun j hj => hother (mem_started.1 hj).1) rfl
    have hhead : (rtAlarmCreate callback setup i s).head = i :: s.head := rfl
    rw [Rtc.started, hhead, List.filter_cons_of_neg (by simp [hnew]), Rtc.started]
    exact List.filter_congr fun j hj => by rw [hother hj]

/-- A step keeps the invariant, and programs the nearest alarm exactly under its condition. -/
theorem step_spec (inv : Inv s) (e : Event) :
    Inv (step mktime s e) ∧
      (Programmed (step mktime s e) e.now.toTm ↔ EventOk mktime s e) := by
  have hnone : Inv s ∧ (Programmed s e.now.toTm ↔ Stays s e.now.toTm) :=
    ⟨inv, programmed_iff_stays inv⟩
  rcases e with ⟨op, setupAt, wakeAt, now⟩
  cases op with
  | create i callback setup =>
    simp only [step, EventOk]
    split
    · exact hnone
    · next hi => exact create_spec inv hi callback setup
  | start i =>
    simp only [step, EventOk]
    split
    · next hi => exact start_spec inv hi setupAt.timed
    · exact hnone
  | stop i =>
    simp only [step, EventOk]
    split
    · next hi =>
      obtain ⟨inv, -, hok⟩ := stop_spec mktime wakeAt.toTm inv hi now.timed
      exact ⟨inv, hok⟩
    · next hi => simpa [mem_started, hi] using hnone
  | modify i setup =>
    simp only [step, EventOk]
    split
    · next hi => exact modify_spec mktime inv hi setupAt.timed now.timed setup
    · next hi => simpa [mem_started, hi] using hnone
  | delete i =>
    simp only [step, EventOk]
    split
    · next hi => exact delete_spec mktime inv hi now.timed
    · exact hnone
  | update => exact ⟨inv.alarmUpdate mktime now.timed, programmed_update mktime inv now.timed⟩

/-- A daily alarm at an hour. -/
def daily (hour : ℤ) : Setup := ⟨rtAlarmDaily, ⟨0, 0, hour, 1, 0, 100, 0⟩⟩

def nine : Clock := ⟨⟨0, 0, 9, 1, 0, 100, 0⟩, by decide⟩

end EasyCore.Alarm
