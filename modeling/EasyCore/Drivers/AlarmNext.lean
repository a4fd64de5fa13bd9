import EasyCore.Drivers.Alarm
import EasyCore.Lib.Cyclic
import EasyCore.Lib.Least

/-! Which alarm the hardware is programmed for: the started alarm that comes up next, or one that
    comes up later.

        now ──▶ ├── after now: the first ──┤ midnight ├── before now: the first ──┤ now

    The scan of `alarm_update` leaves out the current alarm, and one of this very second. -/

namespace EasyCore.Alarm
open Function

/-! ### Nearest alarms -/

/-- The alarms that are started. -/
def Rtc.started (s : Rtc) : List ℕ := s.head.filter fun i => (s.alarm i).started

/-- The seconds until the alarm comes up next; an alarm of this very second comes up tomorrow. -/
def toNext (s : Rtc) (now : Tm) (i : ℕ) : ℕ :=
  Cyclic.dist 86400 (daysec now) (daysec (s.alarm i).wktime)

/-- No alarm that is started comes up before this one. -/
def Nearest (s : Rtc) (now : Tm) (i : ℕ) : Prop :=
  i ∈ s.started ∧ ∀ j ∈ s.started, toNext s now i ≤ toNext s now j

instance (s : Rtc) (now : Tm) (i : ℕ) : Decidable (Nearest s now i) :=
  inferInstanceAs (Decidable (_ ∧ _))

/-- If an alarm is started, the hardware is programmed for the nearest one. -/
def Programmed (s : Rtc) (now : Tm) : Prop :=
  s.started ≠ [] → ∃ i ∈ s.started, Nearest s now i ∧ s.wkalarm = (s.alarm i).toWkalarm

instance (s : Rtc) (now : Tm) : Decidable (Programmed s now) :=
  inferInstanceAs (Decidable (_ → _))

/-! ### When an update programs the nearest alarm -/

/-- What is programmed is the nearest alarm already: it is the current one. -/
def Stays (s : Rtc) (now : Tm) : Prop :=
  s.started ≠ [] → s.wkalarm.enable = true ∧ ∃ i ∈ s.started, s.current = some i ∧ Nearest s now i

variable (mktime : Tm → UInt32)

/-- The alarms that an update leaves started: a one-shot alarm that is over is stopped. -/
def left (s : Rtc) (wakeAt : Tm) : List ℕ :=
  s.started.filter fun i => !overtime mktime wakeAt (s.alarm i)

/-- Those that the scan looks at: not the current alarm, and not one of this very second. -/
def others (s : Rtc) (wakeAt now : Tm) : List ℕ :=
  (left mktime s wakeAt).filter fun i =>
    s.current ≠ some i && daysec (s.alarm i).wktime ≠ daysec now

/-- An update programs the nearest alarm: it looks at one, and the current alarm, if it is left, does
    not come up before all of those; or it has none to look at, no alarm was stopped, and the hardware
    has the current one already. -/
def UpdateOk (s : Rtc) (wakeAt now : Tm) : Prop :=
  left mktime s wakeAt ≠ [] →
    if others mktime s wakeAt now = [] then
      s.wkalarm.enable = true ∧ left mktime s wakeAt = s.started ∧
        ∃ c ∈ s.started, s.current = some c
    else
      ∀ c ∈ left mktime s wakeAt, s.current = some c →
        ∃ i ∈ others mktime s wakeAt now, toNext s now i ≤ toNext s now c

/-! ### The scan -/

/-- The scan may choose this alarm. -/
def eligible (s : Rtc) (i : ℕ) : Prop := (s.alarm i).started = true ∧ s.current ≠ some i

/-- From now to the alarm, on this day. -/
def offset (s : Rtc) (now : Tm) (i : ℕ) : ℤ := (daysec (s.alarm i).wktime : ℤ) - daysec now

/-- What the scan has found among the alarms of `l`: the first one after now, and the first one of
    those that are over. -/
structure Scanned (s : Rtc) (now : Tm) (l : List ℕ) (m : Scan) : Prop where
  next : Least (fun i => eligible s i ∧ 0 < offset s now i) (offset s now) 86400 l
    m.secNext.toInt m.almNext
  prev : Least (fun i => eligible s i ∧ offset s now i ≤ 0) (offset s now) 0 l
    m.secPrev.toInt m.almPrev

variable {s : Rtc} {now wakeAt setupAt : Tm} {i : ℕ} {l : List ℕ} {m : Scan}

theorem scanned_nil : Scanned s now [] {} := ⟨.nil, .nil⟩

/-- One alarm more has been looked at. -/
theorem scanned_step (h : Scanned s now l m) (hnow : now.Timed)
    (htimed : (s.alarm i).started = true → (s.alarm i).wktime.Timed) :
    Scanned s now (l ++ [i]) (scanStep s now m i) := by
  rw [scanStep]
  split
  · next hel =>
    have hel : eligible s i := by simpa [eligible] using hel
    have htmp := toInt_secTmp (htimed hel.1) hnow
    rw [← offset] at htmp
    generalize (alarmMkdaysec (s.alarm i).wktime).toInt32 - (alarmMkdaysec now).toInt32 = secTmp
      at htmp ⊢
    simp only [Int32.lt_iff_toInt_lt, Int32.toInt_zero, htmp]
    split
    · next hpos =>
      have hprev := h.prev.skip (i := i) fun hle => absurd hpos (not_lt.2 hle.2)
      split
      · next hlt => exact ⟨htmp ▸ h.next.keep ⟨hel, hpos⟩ hlt, hprev⟩
      · next hge => exact ⟨h.next.skip fun _ => not_lt.1 hge, hprev⟩
    · next hle =>
      have hnext := h.next.skip (i := i) fun hpos => absurd hpos.2 hle
      split
      · next hlt => exact ⟨hnext, htmp ▸ h.prev.keep ⟨hel, not_lt.1 hle⟩ hlt⟩
      · next hge => exact ⟨hnext, h.prev.skip fun _ => not_lt.1 hge⟩
  · next hel =>
    have hel : ¬eligible s i := by simpa [eligible] using hel
    exact ⟨h.next.skip fun h => absurd h.1 hel, h.prev.skip fun h => absurd h.1 hel⟩

theorem scanned_scan (hnow : now.Timed)
    (htimed : ∀ i ∈ s.head, (s.alarm i).started = true → (s.alarm i).wktime.Timed) :
    Scanned s now s.head (scan s now) := by
  rw [scan]
  suffices h : ∀ l, (∀ i ∈ l, i ∈ s.head) → Scanned s now l (l.foldl (scanStep s now) {}) from
    h s.head fun _ h => h
  intro l
  induction l using List.reverseRecOn with
  | nil => exact fun _ => scanned_nil
  | append_singleton l i ih =>
    intro hl
    rw [List.foldl_append]
    exact scanned_step (ih fun j hj => hl j (List.mem_append_left _ hj)) hnow
      (htimed i (hl i (by simp)))

theorem toInt_day : (24 * 3600 : Int32).toInt = 86400 := by decide

theorem offset_lt (now : Tm) (hi : (s.alarm i).wktime.Timed) : offset s now i < 86400 := by
  have h := daysec_lt hi
  rw [offset]
  omega

theorem offset_pos : 0 < offset s now i ↔ daysec now < daysec (s.alarm i).wktime := by
  rw [offset, sub_pos, Nat.cast_lt]

theorem offset_nonpos : offset s now i ≤ 0 ↔ daysec (s.alarm i).wktime ≤ daysec now := by
  rw [offset, sub_nonpos, Nat.cast_le]

theorem offset_le_offset {j : ℕ} : offset s now i ≤ offset s now j ↔
    daysec (s.alarm i).wktime ≤ daysec (s.alarm j).wktime := by
  rw [offset, offset, sub_le_sub_iff_right, Nat.cast_le]

/-- What is picked is eligible, not of this very second, and comes up before the other ones. -/
theorem pick_some (h : Scanned s now s.head m)
    (htimed : ∀ i ∈ s.head, (s.alarm i).started = true → (s.alarm i).wktime.Timed)
    (hpick : m.pick = some i) :
    i ∈ s.head ∧ eligible s i ∧ offset s now i ≠ 0 ∧
      ∀ j ∈ s.head, eligible s j → toNext s now i ≤ toNext s now j := by
  simp only [Scan.pick, Int32.lt_iff_toInt_lt, toInt_day, Int32.toInt_zero] at hpick
  split at hpick
  · next hlt =>
    -- one that comes up on this day
    obtain ⟨k, hk, ⟨hel, hpos⟩, harg, -, hle⟩ := h.next.exists_least hlt
    obtain rfl : k = i := Option.some_inj.1 (harg.symm.trans hpick)
    refine ⟨hk, hel, hpos.ne', fun j hj hjel => ?_⟩
    have hlater := offset_pos.1 hpos
    rcases lt_or_ge 0 (offset s now j) with hjpos | hjover
    · exact Cyclic.dist_le_dist_later hlater (offset_le_offset.1 (hle j hj ⟨hjel, hjpos⟩))
    · exact (Cyclic.dist_lt_of_later (daysec_lt (htimed k hk hel.1)) hlater
        (offset_nonpos.1 hjover)).le
  next hnext =>
  split at hpick
  · next hlt =>
    -- no alarm comes up on this day
    obtain ⟨k, hk, ⟨hel, -⟩, harg, hneg, hle⟩ := h.prev.exists_least hlt
    obtain rfl : k = i := Option.some_inj.1 (harg.symm.trans hpick)
    have hover (j : ℕ) (hj : j ∈ s.head) (hjel : eligible s j) : offset s now j ≤ 0 := by
      by_contra hpos
      have hlt := offset_lt now (htimed j hj hjel.1)
      exact absurd (h.next.top_le hnext j hj ⟨hjel, not_le.1 hpos⟩) (not_le.2 hlt)
    refine ⟨hk, hel, hneg.ne, fun j hj hjel => ?_⟩
    have hjover := hover j hj hjel
    exact Cyclic.dist_le_dist_over (offset_nonpos.1 hjover)
      (offset_le_offset.1 (hle j hj ⟨hjel, hjover⟩))
  · exact absurd hpick (Option.some_ne_none i).symm

/-- If nothing is picked, each eligible alarm is of this very second. -/
theorem pick_none (h : Scanned s now s.head m)
    (htimed : ∀ i ∈ s.head, (s.alarm i).started = true → (s.alarm i).wktime.Timed)
    (hpick : m.pick = none) :
    ∀ j ∈ s.head, eligible s j → offset s now j = 0 := by
  simp only [Scan.pick, Int32.lt_iff_toInt_lt, toInt_day, Int32.toInt_zero] at hpick
  split at hpick
  · next hlt =>
    obtain ⟨k, -, -, harg, -, -⟩ := h.next.exists_least hlt
    exact absurd (harg.symm.trans hpick) (Option.some_ne_none k)
  next hnext =>
  split at hpick
  · next hlt =>
    obtain ⟨k, -, -, harg, -, -⟩ := h.prev.exists_least hlt
    exact absurd (harg.symm.trans hpick) (Option.some_ne_none k)
  next hprev =>
  intro j hj hel
  have hlt := offset_lt now (htimed j hj hel.1)
  rcases lt_or_ge 0 (offset s now j) with hpos | hle
  · exact absurd (h.next.top_le hnext j hj ⟨hel, hpos⟩) (not_le.2 hlt)
  · exact le_antisymm hle (h.prev.top_le hprev j hj ⟨hel, hle⟩)

/-! ### What is programmed -/

theorem mem_started : i ∈ s.started ↔ i ∈ s.head ∧ (s.alarm i).started = true := List.mem_filter

theorem Inv.timed_started (inv : Inv s) (hi : i ∈ s.started) : (s.alarm i).wktime.Timed :=
  inv.timed (mem_started.1 hi).1 (mem_started.1 hi).2

theorem toNext_congr {t : Rtc} {j : ℕ} (h : (s.alarm i).toWkalarm = (t.alarm j).toWkalarm) :
    toNext s now i = toNext t now j := by
  obtain ⟨-, hsec, hmin, hhour⟩ := Wkalarm.mk.inj h
  have hday : daysec (s.alarm i).wktime = daysec (t.alarm j).wktime := by
    rw [daysec, daysec, alarmMkdaysec, alarmMkdaysec, hsec, hmin, hhour]
  rw [toNext, toNext, hday]

/-- Only the alarms that are started and the hardware alarm matter. -/
theorem programmed_congr {t : Rtc} (hstarted : t.started = s.started)
    (halarm : ∀ i ∈ s.started, t.alarm i = s.alarm i) (hw : t.wkalarm = s.wkalarm) :
    Programmed t now ↔ Programmed s now := by
  have hto (i : ℕ) (hi : i ∈ s.started) : toNext t now i = toNext s now i := by
    rw [toNext, toNext, halarm i hi]
  rw [Programmed, Programmed, hstarted, hw]
  refine imp_congr_right fun _ => exists_congr fun i => and_congr_right fun hi => ?_
  rw [halarm i hi, Nearest, Nearest, hstarted]
  refine and_congr_left fun _ => and_congr_right fun _ => forall₂_congr fun j hj => ?_
  rw [hto i hi, hto j hj]

/-- A step that programs an alarm programs the nearest one if that is the nearest one. -/
theorem programmed_alarmSet (hi : i ∈ s.started) :
    Programmed { alarmSet s i with current := some i } now ↔ Nearest s now i := by
  constructor
  · intro h
    obtain ⟨k, hk, ⟨-, hnear⟩, hw⟩ := h (List.ne_nil_of_mem hi)
    refine ⟨hi, fun j hj => ?_⟩
    rw [toNext_congr (t := s) (j := k) hw]
    exact hnear j hj
  · intro h _
    exact ⟨i, hi, h, rfl⟩

/-- A step that programs nothing leaves the nearest one programmed if that was so. -/
theorem programmed_iff_stays (inv : Inv s) : Programmed s now ↔ Stays s now := by
  refine imp_congr_right fun _ => ?_
  constructor
  · rintro ⟨i, hi, ⟨-, hnear⟩, hw⟩
    have hen : s.wkalarm.enable = true := by
      rw [hw]
      exact (mem_started.1 hi).2
    obtain ⟨c, hc, hcur, hstarted, hwc⟩ := inv.enabled hen
    have hc : c ∈ s.started := mem_started.2 ⟨hc, hstarted⟩
    refine ⟨hen, c, hc, hcur, hc, fun j hj => ?_⟩
    rw [toNext_congr (t := s) (j := i) (hwc.symm.trans hw)]
    exact hnear j hj
  · rintro ⟨hen, c, hc, hcur, hnear⟩
    obtain ⟨c', -, hcur', -, hw⟩ := inv.enabled hen
    obtain rfl : c = c' := Option.some_inj.1 (hcur.symm.trans hcur')
    exact ⟨c, hc, hnear, hw⟩

/-! ### An update -/

/-- A started alarm that is left by the first loop is as it was. -/
theorem mem_left : i ∈ left mktime s wakeAt ↔
    i ∈ s.started ∧ overtime mktime wakeAt (s.alarm i) = false := by
  rw [left, List.mem_filter, Bool.not_eq_true']

theorem Woken.alarm_left {t : Rtc} (h : Woken mktime wakeAt s.head s t)
    (hi : i ∈ left mktime s wakeAt) : t.alarm i = s.alarm i := by
  rw [h.alarm, if_neg]
  rintro ⟨-, hover⟩
  rw [((mem_left mktime).1 hi).2] at hover
  exact Bool.noConfusion hover

theorem Woken.started {t : Rtc} (h : Woken mktime wakeAt s.head s t) :
    t.started = left mktime s wakeAt := by
  rw [Rtc.started, left, Rtc.started, List.filter_filter, h.head]
  refine List.filter_congr fun i hi => ?_
  rw [h.alarm]
  rcases hover : overtime mktime wakeAt (s.alarm i) with _ | _
  · simp
  · simp [hi, RtAlarm.stop]

theorem mem_others : i ∈ others mktime s wakeAt now ↔
    i ∈ left mktime s wakeAt ∧ s.current ≠ some i ∧ daysec (s.alarm i).wktime ≠ daysec now := by
  simp [others]

/-- No alarm is over: the hardware alarm is as it was. -/
theorem left_eq_started : left mktime s wakeAt = s.started ↔
    ∀ i ∈ s.head, overtime mktime wakeAt (s.alarm i) = false := by
  rw [left, List.filter_eq_self]
  constructor
  · intro h i hi
    by_contra hover
    have hover : overtime mktime wakeAt (s.alarm i) = true := by simpa using hover
    have hstarted : (s.alarm i).started = true := by
      simp only [overtime, Bool.and_eq_true] at hover
      exact hover.1.1
    simpa [hover] using h i (mem_started.2 ⟨hi, hstarted⟩)
  · intro h i hi
    rw [h i (mem_started.1 hi).1]
    rfl

section Update
variable {w : Rtc}

/-- What is left may be chosen, unless it is the current alarm. -/
theorem Woken.eligible (h : Woken mktime wakeAt s.head s w) (hi : i ∈ left mktime s wakeAt)
    (hcur : s.current ≠ some i) : i ∈ w.head ∧ eligible w i := by
  have hmem := mem_started.1 (h.started mktime ▸ hi)
  exact ⟨hmem.1, hmem.2, h.current ▸ hcur⟩

theorem Woken.toNext (h : Woken mktime wakeAt s.head s w) (hi : i ∈ left mktime s wakeAt) :
    toNext w now i = toNext s now i := by
  rw [Alarm.toNext, Alarm.toNext, h.alarm_left mktime hi]

theorem Woken.offset (h : Woken mktime wakeAt s.head s w) (hi : i ∈ left mktime s wakeAt) :
    offset w now i = offset s now i := by
  rw [Alarm.offset, Alarm.offset, h.alarm_left mktime hi]

theorem offset_eq_zero : offset s now i = 0 ↔ daysec (s.alarm i).wktime = daysec now := by
  rw [offset, sub_eq_zero, Nat.cast_inj]

/-- The alarm that is picked is the nearest one if the current one does not come before all. -/
theorem nearest_iff_updateOk (h : Woken mktime wakeAt s.head s w) (hi : i ∈ w.head)
    (hel : eligible w i) (hoff : offset w now i ≠ 0)
    (hle : ∀ j ∈ w.head, eligible w j → toNext w now i ≤ toNext w now j) :
    Nearest w now i ↔ UpdateOk mktime s wakeAt now := by
  have hleft : i ∈ left mktime s wakeAt := h.started mktime ▸ mem_started.2 ⟨hi, hel.1⟩
  have hothers : i ∈ others mktime s wakeAt now := by
    refine (mem_others mktime).2 ⟨hleft, h.current ▸ hel.2, ?_⟩
    rwa [h.offset mktime hleft, ne_eq, offset_eq_zero] at hoff
  rw [UpdateOk, if_neg (List.ne_nil_of_mem hothers), Nearest, h.started]
  constructor
  · rintro ⟨-, hnear⟩ - c hc -
    refine ⟨i, hothers, ?_⟩
    rw [← h.toNext mktime hleft, ← h.toNext mktime hc]
    exact hnear c hc
  · intro hok
    refine ⟨hleft, fun j hj => ?_⟩
    rcases eq_or_ne s.current (some j) with hcur | hcur
    · obtain ⟨k, hk, hkj⟩ := hok (List.ne_nil_of_mem hj) j hj hcur
      obtain ⟨hk, hkcur, -⟩ := (mem_others mktime).1 hk
      have hkel := h.eligible mktime hk hkcur
      calc toNext w now i ≤ toNext w now k := hle k hkel.1 hkel.2
        _ = toNext s now k := h.toNext mktime hk
        _ ≤ toNext s now j := hkj
        _ = toNext w now j := (h.toNext mktime hj).symm
    · have hjel := h.eligible mktime hj hcur
      exact hle j hjel.1 hjel.2

/-- If nothing is picked, the nearest alarm stays the current one: all others come up tomorrow. -/
theorem stays_iff_updateOk (h : Woken mktime wakeAt s.head s w) (inv : Inv w)
    (hzero : ∀ j ∈ w.head, eligible w j → offset w now j = 0) :
    Stays w now ↔ UpdateOk mktime s wakeAt now := by
  have hothers : others mktime s wakeAt now = [] := by
    rw [List.eq_nil_iff_forall_not_mem]
    intro j hj
    obtain ⟨hj, hcur, hne⟩ := (mem_others mktime).1 hj
    have hjel := h.eligible mktime hj hcur
    have hoff := hzero j hjel.1 hjel.2
    rw [h.offset mktime hj, offset_eq_zero] at hoff
    exact hne hoff
  rw [UpdateOk, if_pos hothers, Stays, h.started, h.current]
  refine imp_congr_right fun _ => ?_
  constructor
  · rintro ⟨hen, c, hc, hcur, -⟩
    have hnone := h.quiet mktime hen
    rw [h.same hnone] at hen
    exact ⟨hen, (left_eq_started mktime).2 hnone, c, ((mem_left mktime).1 hc).1, hcur⟩
  · rintro ⟨hen, hleft, c, hc, hcur⟩
    rw [h.same ((left_eq_started mktime).1 hleft)]
    rw [← hleft] at hc
    refine ⟨hen, c, hc, hcur, ?_⟩
    rw [Nearest, h.started]
    refine ⟨hc, fun j hj => ?_⟩
    rcases eq_or_ne c j with rfl | hne
    · exact le_rfl
    have hjel := h.eligible mktime hj (by simpa [hcur] using hne)
    have hoff := offset_eq_zero.1 (hzero j hjel.1 hjel.2)
    have htimed := daysec_lt (inv.timed_started (h.started mktime ▸ hc))
    calc toNext w now c ≤ 86400 := Cyclic.dist_le htimed
      _ = toNext w now j := by rw [Alarm.toNext, hoff, Cyclic.dist_now]

end Update

/-- What an update comes to: an alarm has been picked, or none. -/
theorem alarmUpdate_cases (wakeAt : Tm) (inv : Inv s) (hnow : now.Timed) (hne : s.head ≠ []) :
    ∃ w, Woken mktime wakeAt s.head s w ∧ Inv w ∧
      ((∃ i ∈ w.head, eligible w i ∧ offset w now i ≠ 0 ∧
        (∀ j ∈ w.head, eligible w j → toNext w now i ≤ toNext w now j) ∧
        alarmUpdate mktime wakeAt now s = { alarmSet w i with current := some i }) ∨
      ((∀ j ∈ w.head, eligible w j → offset w now j = 0) ∧
        alarmUpdate mktime wakeAt now s = w)) := by
  have invw := inv.wakeAll mktime wakeAt
  have hscan := scanned_scan hnow fun i hi => invw.timed hi
  refine ⟨_, woken_wakeAll mktime wakeAt s, invw, ?_⟩
  rw [alarmUpdate, if_neg hne]
  simp only
  split
  · next i hpick =>
    obtain ⟨hi, hel, hoff, hle⟩ := pick_some hscan (fun i hi => invw.timed hi) hpick
    exact .inl ⟨i, hi, hel, hoff, hle, rfl⟩
  · next hpick => exact .inr ⟨pick_none hscan (fun i hi => invw.timed hi) hpick, rfl⟩

theorem Inv.alarmUpdate (inv : Inv s) (hnow : now.Timed) :
    Inv (alarmUpdate mktime wakeAt now s) := by
  rcases eq_or_ne s.head [] with hnil | hne
  · rwa [Alarm.alarmUpdate, if_pos hnil]
  obtain ⟨w, -, invw, ⟨i, hi, hel, -, -, heq⟩ | ⟨-, heq⟩⟩ :=
    alarmUpdate_cases mktime wakeAt inv hnow hne
  · rw [heq]
    exact inv_alarmSet invw.ready hi hel.1
  · rwa [heq]

/-- An update programs the nearest alarm exactly under its condition. -/
theorem programmed_update (inv : Inv s) (hnow : now.Timed) :
    Programmed (alarmUpdate mktime wakeAt now s) now ↔ UpdateOk mktime s wakeAt now := by
  rcases eq_or_ne s.head [] with hnil | hne
  · have hstarted : s.started = [] := by rw [Rtc.started, hnil, List.filter_nil]
    rw [Alarm.alarmUpdate, if_pos hnil, Programmed, UpdateOk, left, hstarted]
    simp
  obtain ⟨w, h, invw, ⟨i, hi, hel, hoff, hle, heq⟩ | ⟨hzero, heq⟩⟩ :=
    alarmUpdate_cases mktime wakeAt inv hnow hne
  · rw [heq, programmed_alarmSet (mem_started.2 ⟨hi, hel.1⟩)]
    exact nearest_iff_updateOk mktime h hi hel hoff hle
  · rw [heq, programmed_iff_stays invw]
    exact stays_iff_updateOk mktime h invw hzero

end EasyCore.Alarm
