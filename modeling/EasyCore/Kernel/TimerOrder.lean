import EasyCore.Kernel.TimerFlag

/-! The order of the timer lists. The deadlines of the timers are numbers without a bound, of which
    the ticks are the remainders: a list is sorted by them, and among equal ones by the starts. The
    comparison of `rt_timer_start` is right as long as no two time-outs that it compares are more
    than half the range of ticks apart. -/

namespace EasyCore.Timer
open Function EasyCore.Links EasyCore.Kernel EasyCore.Runs

variable {τ : Type*}

/-! ### What becomes of the starts -/

/-- The number and the deadline of the last start of a timer. -/
def Run.number (r : Run τ) (t : τ) : ℕ := (r.born t).getD 0
def Run.deadlineOf (r : Run τ) (t : τ) : ℕ := (r.born t).elim 0 r.deadline

/-- `t` comes to its end before `u`, or at the same time and it was started first. -/
def Run.Before (r : Run τ) (t u : τ) : Prop :=
  r.deadlineOf t < r.deadlineOf u ∨ r.deadlineOf t = r.deadlineOf u ∧ r.number t < r.number u

/-- The starts that have come to an end. -/
def Run.endedStarts (r : Run τ) : List ℕ := r.fired.map Prod.fst ++ r.stopped

/-- Every start has come to one end or is still to come to it, and no function was called early. -/
structure Ledger (r : Run τ) : Prop where
  born_lt : ∀ {t n}, r.born t = some n → n < r.starts
  born_inj : ∀ {t u n}, r.born t = some n → r.born u = some n → t = u
  ended_lt : ∀ {n}, n ∈ r.endedStarts → n < r.starts
  once : r.endedStarts.Nodup
  early : ∀ {n k}, (n, k) ∈ r.fired → r.deadline n ≤ k
  account : ∀ n < r.starts, n ∈ r.endedStarts ∨ ∃ t, r.pending t = some n

namespace Ledger
variable {r r' : Run τ} {t u : τ} {n : ℕ}

theorem pending_eq_some : r.pending t = some n ↔ r.born t = some n ∧ n ∉ r.endedStarts := by
  simp [Run.pending, Run.endedStarts, Option.filter_eq_some_iff]

theorem deadlineOf_eq (h : r.pending t = some n) : r.deadlineOf t = r.deadline n := by
  rw [Run.deadlineOf, (pending_eq_some.1 h).1]
  rfl

/-- A start of one timer is not a start of another. -/
theorem pending_inj (v : Ledger r) (ht : r.pending t = some n) (hu : r.pending u = some n) : t = u :=
  v.born_inj (pending_eq_some.1 ht).1 (pending_eq_some.1 hu).1

/-- A ledger says nothing of the timer lists. -/
theorem congr (v : Ledger r) {s : Timers τ} {p : Option τ} : Ledger { r with os := s, pc := p } :=
  ⟨v.born_lt, v.born_inj, v.ended_lt, v.once, v.early, v.account⟩

/-- The start of a timer comes to its end. -/
theorem close (v : Ledger r) (hborn : r'.born = r.born) (hstarts : r'.starts = r.starts)
    (hends : r'.endedStarts.Perm ((r.pending t).toList ++ r.endedStarts))
    (hearly : ∀ {n k}, (n, k) ∈ r'.fired → r'.deadline n ≤ k) :
    Ledger r' ∧ r'.pending t = none ∧ ∀ u, u ≠ t → r'.pending u = r.pending u := by
  have hmem : ∀ n, n ∈ r'.endedStarts ↔ r.pending t = some n ∨ n ∈ r.endedStarts := by
    intro n
    rw [hends.mem_iff, List.mem_append, Option.mem_toList]
  have hother : ∀ u, u ≠ t → r'.pending u = r.pending u := by
    intro u hu
    refine Option.ext fun n => ?_
    rw [pending_eq_some, pending_eq_some, hborn, hmem, not_or]
    refine and_congr_right fun hb => and_iff_right_of_imp fun hn ht => ?_
    exact hu (v.pending_inj (pending_eq_some.2 ⟨hb, hn⟩) ht)
  refine ⟨⟨?_, ?_, ?_, ?_, hearly, ?_⟩, ?_, hother⟩
  · intro t n h
    rw [hstarts]
    exact v.born_lt (hborn ▸ h)
  · intro t u n ht hu
    exact v.born_inj (hborn ▸ ht) (hborn ▸ hu)
  · intro n hn
    rw [hstarts]
    rcases (hmem n).1 hn with h | h
    · exact v.born_lt (pending_eq_some.1 h).1
    · exact v.ended_lt h
  · rw [hends.nodup_iff, List.nodup_append]
    refine ⟨by cases r.pending t <;> simp, v.once, ?_⟩
    rintro n hn m hm rfl
    rw [Option.mem_toList] at hn
    exact (pending_eq_some.1 hn).2 hm
  · intro n hn
    rw [hmem]
    rcases v.account n (hstarts ▸ hn) with h | ⟨u, hu⟩
    · exact .inl (.inr h)
    · by_cases hut : u = t
      · exact .inl (.inl (hut ▸ hu))
      · exact .inr ⟨u, (hother u hut).trans hu⟩
  · refine Option.eq_none_iff_forall_ne_some.2 fun n h => ?_
    obtain ⟨hb, hn⟩ := pending_eq_some.1 h
    rw [hmem, not_or] at hn
    exact hn.1 (pending_eq_some.2 ⟨hborn ▸ hb, hn.2⟩)

theorem ended (v : Ledger r) (t : τ) : Ledger (r.ended t) ∧ (r.ended t).pending t = none ∧
    ∀ u, u ≠ t → (r.ended t).pending u = r.pending u := by
  refine v.close rfl rfl ?_ v.early
  rw [Run.endedStarts, Run.ended]
  exact List.perm_append_comm_assoc ..

/-- A function is called, not before the deadline. -/
theorem fire (v : Ledger r) (h : (r.pending t).isSome → r.deadlineOf t ≤ r.now) :
    Ledger (r.fire t) ∧ (r.fire t).pending t = none ∧
      ∀ u, u ≠ t → (r.fire t).pending u = r.pending u := by
  refine v.close rfl rfl ?_ fun {n k} hnk => ?_
  · simp [Run.endedStarts, Run.fire, Function.comp_def]
  · rcases List.mem_append.1 hnk with hnk | hnk
    · obtain ⟨m, hm, he⟩ := List.mem_map.1 hnk
      obtain ⟨rfl, rfl⟩ := Prod.mk.inj he
      rw [Option.mem_toList] at hm
      exact (deadlineOf_eq hm).symm.trans_le (h (by rw [hm]; rfl))
    · exact v.early hnk

variable [DecidableEq τ]

theorem started_born_self : (r.started t).born t = some r.starts := update_self ..

theorem started_born_of_ne (hu : u ≠ t) : (r.started t).born u = r.born u := update_of_ne hu ..

theorem started_deadline_self :
    (r.started t).deadline r.starts = r.now + (r.os.timer t).initTick := update_self ..

theorem started_deadline_of_ne (hn : n ≠ r.starts) : (r.started t).deadline n = r.deadline n :=
  update_of_ne hn ..

/-- A timer is started whose last start has come to its end. -/
theorem started (v : Ledger r) (h : r.pending t = none) :
    Ledger (r.started t) ∧ (r.started t).pending t = some r.starts ∧
      ∀ u, u ≠ t → (r.started t).pending u = r.pending u := by
  have hlt : ∀ {n}, n ∈ r.endedStarts → n ≠ r.starts := fun hn => (v.ended_lt hn).ne
  have ht : (r.started t).pending t = some r.starts :=
    pending_eq_some.2 ⟨started_born_self, fun hn => hlt hn rfl⟩
  have hother : ∀ u, u ≠ t → (r.started t).pending u = r.pending u := by
    intro u hu
    rw [Run.pending, Run.pending, started_born_of_ne hu]
    rfl
  have hborn : ∀ {u n}, (r.started t).born u = some n →
      u = t ∧ n = r.starts ∨ u ≠ t ∧ r.born u = some n := by
    intro u n hu
    by_cases hut : u = t
    · subst hut
      rw [started_born_self] at hu
      exact .inl ⟨rfl, (Option.some.inj hu).symm⟩
    · rw [started_born_of_ne hut] at hu
      exact .inr ⟨hut, hu⟩
  refine ⟨⟨?_, ?_, fun hn => Nat.lt_succ_of_lt (v.ended_lt hn), v.once, ?_, ?_⟩, ht, hother⟩
  · intro u n hu
    rcases hborn hu with ⟨-, rfl⟩ | ⟨-, hu⟩
    · exact Nat.lt_succ_self _
    · exact Nat.lt_succ_of_lt (v.born_lt hu)
  · intro u w n hu hw
    rcases hborn hu with ⟨rfl, rfl⟩ | ⟨-, hu⟩
    · rcases hborn hw with ⟨rfl, -⟩ | ⟨-, hw⟩
      · rfl
      · exact absurd (v.born_lt hw) (lt_irrefl _)
    · rcases hborn hw with ⟨-, rfl⟩ | ⟨-, hw⟩
      · exact absurd (v.born_lt hu) (lt_irrefl _)
      · exact v.born_inj hu hw
  · intro n k hnk
    have hn : n ≠ r.starts :=
      hlt (List.mem_append_left _ (List.mem_map.2 ⟨(n, k), hnk, rfl⟩))
    rw [started_deadline_of_ne hn]
    exact v.early hnk
  · intro n hn
    rcases Nat.lt_succ_iff_lt_or_eq.1 hn with hn | rfl
    · refine (v.account n hn).imp_right fun ⟨u, hu⟩ => ⟨u, ?_⟩
      have hut : u ≠ t := by
        rintro rfl
        rw [h] at hu
        exact absurd hu (by simp)
      exact (hother u hut).trans hu
    · exact .inr ⟨t, ht⟩

end Ledger

/-! ### The order -/

section Compare
variable {s : Timers τ} {t : τ} {d deadline now : ℕ}

/-- `rt_timer_start` compares the deadlines, if they are not too far apart. -/
theorem later_iff (h : (s.timer t).timeoutTick = d % 2 ^ 32) (hnow : now ≤ deadline)
    (hle : deadline ≤ d + 2 ^ 31 + 1) (hd : d < now + tickMax / 2) :
    s.Later (deadline % 2 ^ 32) t ↔ deadline < d := by
  rw [Timers.Later, h, sub32]
  unfold tickMax at hd ⊢
  omega

/-- A timer that is due has come to its deadline. -/
theorem le_of_due (h : (s.timer t).timeoutTick = d % 2 ^ 32) (ht : s.tick = now % 2 ^ 32)
    (hd : d < now + tickMax / 2) (hdue : s.due t = true) : d ≤ now := by
  rw [Timers.due, h, ht, sub32, decide_eq_true_iff] at hdue
  unfold tickMax at hd hdue
  omega

/-- One that is not has not, if it has not been left alone for too long. -/
theorem lt_of_not_due (h : (s.timer t).timeoutTick = d % 2 ^ 32) (ht : s.tick = now % 2 ^ 32)
    (hd : now < d + tickMax / 2) (hdue : s.due t = false) : now < d := by
  rw [Timers.due, h, ht, sub32, decide_eq_false_iff_not] at hdue
  unfold tickMax at hd hdue
  omega

end Compare

section Order
variable [DecidableEq τ]

/-- The deadline of a start is not too far behind the deadline of any timer of the same list. -/
def Run.StartOk (cfg : Config) (r : Run τ) (t : τ) : Prop :=
  ∀ u, r.os.linked cfg u = true → (r.os.timer u).list = (r.os.timer t).list →
    r.now + (r.os.timer t).initTick ≤ r.deadlineOf u + 2 ^ 31 + 1

/-- Every start meets `StartOk`, and no function returns while its own timer is linked. -/
def Run.orderOk (cfg : Config) (r : Run τ) : Op τ → Prop
  | .start t => (r.os.timer t).activated = false → r.StartOk cfg t
  | .return => ∀ t ∈ r.pc, r.os.linked cfg t = false ∧
      ((r.os.timer t).periodic = true ∧ (r.os.timer t).activated = true → r.StartOk cfg t)
  | _ => True

/-- The invariant. -/
structure OrderInv (cfg : Config) (r : Run τ) (R : ℕ → TimerList → List τ) : Prop extends
    Base cfg r.os R, Ledger r where
  tick : r.os.tick = r.now % 2 ^ 32
  linked : ∀ {t}, t ∈ R cfg.bottom (r.os.timer t).list ↔ (r.pending t).isSome = true
  timeout : ∀ {l t}, t ∈ R cfg.bottom l → (r.os.timer t).timeoutTick = r.deadlineOf t % 2 ^ 32
  bound : ∀ {l t}, t ∈ R cfg.bottom l → r.deadlineOf t < r.now + tickMax / 2
  sorted : ∀ l, (R cfg.bottom l).Pairwise r.Before
  skip : ∀ i < cfg.bottom, ∀ l, (R i l).Sublist (R (i + 1) l)

variable {r r' : Run τ} {cfg : Config} {R : ℕ → TimerList → List τ} {l : TimerList} {t u : τ}
  {i fuel : ℕ} {s s' : Timers τ} {e : ℤ}

/-- `rt_timer_control` changes the period and `RT_TIMER_FLAG_PERIODIC` only. -/
theorem rtTimerControl_timer {γ : Type*} {cmd : Cmd} (g : RtTimer → γ)
    (h : ∀ (timer : RtTimer) (p : Bool) (n : ℕ),
      g { timer with periodic := p, initTick := n } = g timer) (u : τ) :
    g ((rtTimerControl t cmd s).timer u) = g (s.timer u) := by
  refine modTimer_timer g ?_ u
  cases cmd with
  | setTime arg => exact h _ (s.timer t).periodic _
  | setOneshot => exact h _ _ (s.timer t).initTick
  | setPeriodic => exact h _ _ (s.timer t).initTick

namespace OrderInv

omit [DecidableEq τ] in
theorem sublist_bottom (v : OrderInv cfg r R) (hi : i ≤ cfg.bottom) (l : TimerList) :
    (R i l).Sublist (R cfg.bottom l) := by
  induction hi using Nat.decreasingInduction with
  | self => exact .refl _
  | of_succ i hi ih => exact (v.skip i hi l).trans ih

omit [DecidableEq τ] in
/-- Every row is sorted by the deadlines. -/
theorem sorted_row (v : OrderInv cfg r R) (hi : i ≤ cfg.bottom) (l : TimerList) :
    (R i l).Pairwise fun t u => r.deadlineOf t ≤ r.deadlineOf u :=
  ((v.sorted l).imp fun h => h.elim le_of_lt fun h => h.1.le).sublist (v.sublist_bottom hi l)

omit [DecidableEq τ] in
theorem number_lt (v : OrderInv cfg r R) (h : t ∈ R cfg.bottom l) : r.number t < r.starts := by
  obtain ⟨n, hn⟩ := Option.isSome_iff_exists.1 (v.linked.1 ((v.own h).symm ▸ h))
  obtain ⟨hb, -⟩ := Ledger.pending_eq_some.1 hn
  rw [Run.number, hb]
  exact v.born_lt hb

omit [DecidableEq τ] in
/-- A step that leaves the rows alone. -/
theorem congr (v : OrderInv cfg r R) (hb : Base cfg r'.os R) (hl : Ledger r')
    (hborn : r'.born = r.born) (hdl : r'.deadline = r.deadline) (hp : r'.pending = r.pending)
    (hlist : ∀ u, (r'.os.timer u).list = (r.os.timer u).list)
    (htimeout : ∀ u, (r'.os.timer u).timeoutTick = (r.os.timer u).timeoutTick)
    (htick : r'.os.tick = r'.now % 2 ^ 32) (hnow : r.now ≤ r'.now) : OrderInv cfg r' R := by
  have hd : r'.deadlineOf = r.deadlineOf := by
    funext u
    rw [Run.deadlineOf, Run.deadlineOf, hborn, hdl]
  refine ⟨hb, hl, htick, fun {u} => ?_, fun hu => ?_, fun hu => ?_, fun l => ?_, v.skip⟩
  · rw [hlist, hp]
    exact v.linked
  · rw [htimeout, hd]
    exact v.timeout hu
  · rw [hd]
    exact (v.bound hu).trans_le (Nat.add_le_add_right hnow _)
  · refine (v.sorted l).imp fun {t u} h => ?_
    rw [Run.Before, Run.number, Run.number, hd, hborn]
    exact h

/-- A step that takes a timer out of the rows and ends its start. -/
theorem remove (v : OrderInv cfg r R) (hb : Base cfg r'.os fun i => without (R i) t)
    (hl : Ledger r' ∧ r'.pending t = none ∧ ∀ u, u ≠ t → r'.pending u = r.pending u)
    (hborn : r'.born = r.born) (hdl : r'.deadline = r.deadline)
    (hlist : ∀ u, (r'.os.timer u).list = (r.os.timer u).list)
    (htimeout : ∀ u, (r'.os.timer u).timeoutTick = (r.os.timer u).timeoutTick)
    (htick : r'.os.tick = r.os.tick) (hnow : r'.now = r.now) :
    OrderInv cfg r' fun i => without (R i) t := by
  have hd : r'.deadlineOf = r.deadlineOf := by
    funext u
    rw [Run.deadlineOf, Run.deadlineOf, hborn, hdl]
  have hsub : ∀ i l, (without (R i) t l).Sublist (R i l) := fun i l => List.erase_sublist
  refine ⟨hb, hl.1, ?_, fun {u} => ?_, fun hu => ?_, fun hu => ?_, fun l => ?_, fun i hi l => ?_⟩
  · rw [htick, hnow]
    exact v.tick
  · rw [hlist]
    by_cases hut : u = t
    · subst hut
      rw [hl.2.1]
      simpa using v.toBase.not_mem_remove
    · rw [mem_without_of_ne hut, hl.2.2 u hut]
      exact v.linked
  · rw [htimeout, hd]
    exact v.timeout ((hsub _ _).subset hu)
  · rw [hd, hnow]
    exact v.bound ((hsub _ _).subset hu)
  · refine ((v.sorted l).sublist (hsub _ l)).imp fun {t u} h => ?_
    rw [Run.Before, Run.number, Run.number, hd, hborn]
    exact h
  · exact (v.skip i hi l).erase t

/-- The places that `rt_timer_start` finds: in each row all timers in front of the new one have a
    deadline no later than it, and all behind it a later one. -/
theorem places (v : OrderInv cfg r R) (ha : (r.os.timer t).activated = false)
    (hok : r.StartOk cfg t) (h : rtTimerStart cfg fuel t r.os = some (e, s')) :
    s'.tick = r.os.tick ∧
    s'.timer = update r.os.timer t { r.os.timer t with
      activated := true
      timeoutTick := (r.now + (r.os.timer t).initTick) % 2 ^ 32 } ∧
    (r.os.timer t).initTick < tickMax / 2 ∧
    ∃ A B k, k ≤ cfg.bottom ∧
      (∀ i ≤ cfg.bottom, R i (r.os.timer t).list = A i ++ B i ∧
        (∀ u ∈ A i, r.deadlineOf u ≤ r.now + (r.os.timer t).initTick) ∧
        ∀ u ∈ B i, r.now + (r.os.timer t).initTick < r.deadlineOf u) ∧
      Base cfg s' (insertAt R (r.os.timer t).list t A B k) := by
  obtain ⟨htick, htimer, hlt, A, B, k, hk, hAB, hb⟩ := v.toBase.start ha h
  rw [v.tick, Nat.mod_add_mod] at htimer
  refine ⟨htick, htimer, hlt, A, B, k, hk, fun i hi => ?_, hb⟩
  obtain ⟨hR, hlast, hhead⟩ := hAB i hi
  have htt : (s'.timer t).timeoutTick = (r.now + (r.os.timer t).initTick) % 2 ^ 32 := by
    rw [htimer, update_self]
  have hlater : ∀ u ∈ R i (r.os.timer t).list, s'.Later (s'.timer t).timeoutTick u ↔
      r.now + (r.os.timer t).initTick < r.deadlineOf u := by
    intro u hu
    have hub := (v.sublist_bottom hi _).subset hu
    have hut : u ≠ t := fun he => v.toBase.not_mem ha hi (he ▸ hu)
    have htimeout : (s'.timer u).timeoutTick = r.deadlineOf u % 2 ^ 32 := by
      rw [htimer, update_of_ne hut]
      exact v.timeout hub
    rw [htt]
    refine later_iff htimeout (Nat.le_add_right ..) ?_ (v.bound hub)
    exact hok u (v.toBase.linked_iff.2 ((v.own hub).symm ▸ hub)) (v.own hub)
  have hsorted := v.sorted_row hi (r.os.timer t).list
  rw [hR] at hsorted hlater
  refine ⟨hR, SkipList.all_le hsorted fun u hu => ?_, SkipList.all_gt hsorted fun u hu => ?_⟩
  · have hmem := List.mem_append_left (B i) (List.mem_of_getLast? hu)
    exact not_lt.1 fun hlt => hlast u hu ((hlater u hmem).2 hlt)
  · have hmem := List.mem_append_right (A i) (List.mem_of_head? hu)
    exact (hlater u hmem).1 (hhead u hu)

/-- A timer is started. -/
theorem start (v : OrderInv cfg r R) (ha : (r.os.timer t).activated = false)
    (hok : r.StartOk cfg t) (h : rtTimerStart cfg fuel t r.os = some (e, s')) :
    ∃ R', OrderInv cfg { r.started t with os := s' } R' := by
  obtain ⟨htick, htimer, hlt, A, B, k, hk, hAB, hb⟩ := v.places ha hok h
  have hout : ∀ l, t ∉ R cfg.bottom l := fun l => v.toBase.not_mem ha le_rfl
  have hne : ∀ {u l}, u ∈ R cfg.bottom l → u ≠ t := fun hu he => hout _ (he ▸ hu)
  have hnone : r.pending t = none := by
    rw [← Option.not_isSome_iff_eq_none, ← v.linked]
    exact hout _
  obtain ⟨hl, hpt, hpu⟩ := v.toLedger.started hnone
  obtain ⟨hR, hA, hB⟩ := hAB _ le_rfl
  generalize hr' : { r.started t with os := s' } = r'
  have hos : r'.os = s' := by rw [← hr']
  have hborn : r'.born = (r.started t).born := by rw [← hr']
  have hnow : r'.now = r.now := by rw [← hr']; rfl
  have hpending : r'.pending = (r.started t).pending := by rw [← hr']; rfl
  have hdt : r'.deadlineOf t = r.now + (r.os.timer t).initTick := by
    rw [Run.deadlineOf, hborn, Ledger.started_born_self, ← hr']
    exact Ledger.started_deadline_self
  have hdu : ∀ u, u ≠ t → r'.deadlineOf u = r.deadlineOf u := by
    intro u hu
    rw [Run.deadlineOf, Run.deadlineOf, hborn, Ledger.started_born_of_ne hu, ← hr']
    cases hn : r.born u with
    | none => rfl
    | some n => exact Ledger.started_deadline_of_ne (v.born_lt hn).ne
  have hold : ∀ l, (R cfg.bottom l).Pairwise r'.Before := by
    intro l
    refine (v.sorted l).imp_of_mem fun {x y} hx hy h => ?_
    rw [Run.Before, Run.number, Run.number, hdu x (hne hx), hdu y (hne hy), hborn,
      Ledger.started_born_of_ne (hne hx), Ledger.started_born_of_ne (hne hy)]
    exact h
  have hnumber : ∀ {u l}, u ∈ R cfg.bottom l → r'.number u < r'.number t := by
    intro u l hu
    rw [Run.number, Run.number, hborn, Ledger.started_born_of_ne (hne hu),
      Ledger.started_born_self]
    exact v.number_lt hu
  refine ⟨insertAt R (r.os.timer t).list t A B k, hos ▸ hb, hr' ▸ hl.congr, ?_, fun {u} => ?_,
    fun {l u} hu => ?_, fun {l u} hu => ?_, fun l => ?_, fun i hi l => ?_⟩
  · rw [hos, htick, hnow]
    exact v.tick
  · rw [mem_insertAt hR, hos, htimer, hpending]
    by_cases hut : u = t
    · subst hut
      rw [update_self, hpt]
      simp [RtTimer.list, hk]
    · rw [update_of_ne hut, hpu u hut, ← v.linked]
      simp [hut]
  · rw [hos, htimer]
    rcases (mem_insertAt hR).1 hu with hu | ⟨-, -, rfl⟩
    · rw [update_of_ne (hne hu), hdu u (hne hu)]
      exact v.timeout hu
    · rw [update_self, hdt]
  · rw [hnow]
    rcases (mem_insertAt hR).1 hu with hu | ⟨-, -, rfl⟩
    · rw [hdu u (hne hu)]
      exact v.bound hu
    · rw [hdt]
      exact Nat.add_lt_add_left hlt _
  · by_cases hl : l = (r.os.timer t).list
    · subst hl
      rw [insertAt_of_le hk]
      refine SkipList.pairwise_insert (hR ▸ hold _) (fun u hu => ?_) fun u hu => ?_
      · have hmem : u ∈ R cfg.bottom (r.os.timer t).list := hR ▸ List.mem_append_left _ hu
        rw [Run.Before, hdt, hdu u (hne hmem)]
        exact (hA u hu).lt_or_eq.imp_right fun he => ⟨he, hnumber hmem⟩
      · have hmem : u ∈ R cfg.bottom (r.os.timer t).list := hR ▸ List.mem_append_right _ hu
        rw [Run.Before, hdt, hdu u (hne hmem)]
        exact .inl (hB u hu)
    · rw [insertAt_of_ne hl]
      exact hold l
  · refine insertAt_sublist (v.skip i hi l) (hAB i hi.le).1 fun hl => ?_
    obtain ⟨hRi, hAi, hBi⟩ := hAB i hi.le
    obtain ⟨hRj, hAj, hBj⟩ := hAB (i + 1) hi
    exact SkipList.sublist_parts (hRi ▸ hRj ▸ v.skip i hi _) hAi hBi hAj hBj

/-- The function of a timer that is not linked returns. -/
theorem finish (v : OrderInv cfg r R) (h : r.os.linked cfg t = false) :
    OrderInv cfg { r with os := r.os.setActivated t false, pc := none } R :=
  v.congr (v.toBase.deactivate fun _ => v.toBase.not_linked h) v.toLedger.congr rfl rfl rfl
    setActivated_list setActivated_timeoutTick v.tick le_rfl

/-- One step keeps the invariant. -/
theorem step (v : OrderInv cfg r R) {op : Op τ} (hok : r.orderOk cfg op)
    (h : r.exec cfg fuel op = some r') : ∃ R', OrderInv cfg r' R' := by
  cases exec_effect h with
  | nothing => exact ⟨R, v⟩
  | start ha hs => exact v.start ha (hok ha) hs
  | @stop t ha =>
    have hl := v.toLedger.ended t
    exact ⟨_, v.remove ((v.toBase.remove t).deactivate fun l => v.toBase.not_mem_remove)
      ⟨hl.1.congr, hl.2⟩ rfl rfl setActivated_list setActivated_timeoutTick rfl rfl⟩
  | @control t cmd =>
    have hb : Base cfg (rtTimerControl t cmd r.os) R := by
      refine v.toBase.modTimer (by cases cmd <;> rfl) fun l hl => ?_
      rw [← v.active hl]
      cases cmd <;> rfl
    exact ⟨R, v.congr hb v.toLedger.congr rfl rfl rfl
      (rtTimerControl_timer RtTimer.list fun _ _ _ => rfl)
      (rtTimerControl_timer RtTimer.timeoutTick fun _ _ _ => rfl) v.tick le_rfl⟩
  | @detach t =>
    have hl := v.toLedger.ended t
    exact ⟨_, v.remove (v.toBase.remove t) ⟨hl.1.congr, hl.2⟩ rfl rfl (fun _ => rfl) (fun _ => rfl)
      rfl rfl⟩
  | tick =>
    refine ⟨R, v.congr ⟨⟨v.rows.linked, v.rows.nested⟩, v.own, v.active⟩ ⟨v.born_lt, v.born_inj,
      v.ended_lt, v.once, v.early, v.account⟩ rfl rfl rfl (fun _ => rfl) (fun _ => rfl) ?_
      (Nat.le_add_right _ _)⟩
    dsimp only
    rw [v.tick, Nat.mod_add_mod]
  | @fire t hpc hfirst hdue =>
    obtain ⟨b, hR⟩ := v.rows.first_item hfirst
    have hmem : t ∈ R cfg.bottom .hard := hR ▸ List.mem_cons_self
    have hl := v.toLedger.fire (t := t) fun _ =>
      le_of_due (v.timeout hmem) v.tick (v.bound hmem) hdue
    exact ⟨_, v.remove (v.toBase.remove t) ⟨hl.1.congr, hl.2⟩ rfl rfl (fun _ => rfl)
      (fun _ => rfl) rfl rfl⟩
  | @restart t e s' hpc hp hs =>
    obtain ⟨hlinked, hstart⟩ := hok t hpc
    have hok' : Run.StartOk cfg { r with os := r.os.setActivated t false, pc := none } t := by
      intro u hu hut
      rw [setActivated_initTick]
      rw [setActivated_list, setActivated_list] at hut
      exact hstart hp u hu hut
    obtain ⟨R', w⟩ := (v.finish hlinked).start setActivated_self hok' hs
    rw [Run.started, setActivated_initTick] at w
    exact ⟨R', w⟩
  | @finish t hpc hp => exact ⟨R, v.finish (hok t hpc).1⟩

omit [DecidableEq τ] in
/-- Nothing is linked at first. -/
theorem init (h : r.Init) : OrderInv cfg r fun _ _ => [] := by
  have hb : Base cfg r.os fun _ _ => [] := .init h
  obtain ⟨-, -, htick, -, hstarts, hborn, hfired, hstopped⟩ := h
  have hended : r.endedStarts = [] := by simp [Run.endedStarts, hfired, hstopped]
  refine ⟨hb, ⟨?_, ?_, ?_, ?_, ?_, ?_⟩, htick, ?_, ?_, ?_, ?_, ?_⟩
  all_goals simp [hstarts, hborn, hfired, hended, Run.pending]

end OrderInv

/-! ### What is promised -/

/-- The bottom rows are sorted by the deadlines, among equal ones by the starts, and each row is a
    sublist of the row below it; exactly the timers with a start that is still to come to its end
    are linked, every start comes to one end only, and no function is called before the deadline. A
    check that comes to its end leaves no timer linked whose deadline has come. -/
structure Ordered (cfg : Config) (r : Run τ) (R : ℕ → TimerList → List τ) : Prop where
  rows : Rows cfg r.os R
  own : ∀ l, ∀ t ∈ R cfg.bottom l, (r.os.timer t).list = l
  timeout : ∀ l, ∀ t ∈ R cfg.bottom l, (r.os.timer t).timeoutTick = r.deadlineOf t % 2 ^ 32
  sorted : ∀ l, (R cfg.bottom l).Pairwise r.Before
  skip : ∀ i < cfg.bottom, ∀ l, (R i l).Sublist (R (i + 1) l)
  linked : ∀ t, t ∈ R cfg.bottom (r.os.timer t).list ↔ (r.pending t).isSome = true
  once : r.endedStarts.Nodup
  account : ∀ n, n < r.starts ↔ n ∈ r.endedStarts ∨ ∃ t, r.pending t = some n
  early : ∀ n k, (n, k) ∈ r.fired → r.deadline n ≤ k
  check : ∀ fuel r', r.exec cfg fuel .check = some r' → r'.pc = none →
    (∀ t ∈ R cfg.bottom .hard, r.now < r.deadlineOf t + tickMax / 2) →
    ∀ t ∈ R cfg.bottom .hard, r.now < r.deadlineOf t
  total : ∀ t, (r.os.timer t).initTick < tickMax / 2 → ∃ fuel, (r.exec cfg fuel (.start t)).isSome

namespace OrderInv

/-- A check comes to its end when the first timer is not due, and then no other is. -/
theorem check_end (v : OrderInv cfg r R) (h : r.exec cfg fuel .check = some r') (hpc : r'.pc = none)
    (hago : ∀ t ∈ R cfg.bottom .hard, r.now < r.deadlineOf t + tickMax / 2) :
    ∀ t ∈ R cfg.bottom .hard, r.now < r.deadlineOf t := by
  obtain ⟨-, h⟩ := Option.ite_none_right_eq_some.1 h
  split at h
  next hhead =>
    rw [v.rows.first_head hhead]
    simp
  next t ht =>
    obtain ⟨b, hR⟩ := v.rows.first_item ht
    have hmem : t ∈ R cfg.bottom .hard := hR ▸ List.mem_cons_self
    split at h
    · obtain rfl := Option.some.inj h
      exact absurd hpc (by simp)
    next hdue =>
      have hlt : r.now < r.deadlineOf t :=
        lt_of_not_due (v.timeout hmem) v.tick (hago t hmem) (by simpa using hdue)
      have hsorted := v.sorted_row le_rfl .hard
      rw [hR] at hsorted ⊢
      exact SkipList.all_gt (a := []) hsorted fun u hu => by rwa [← Option.some.inj hu]

theorem ordered (v : OrderInv cfg r R) : Ordered cfg r R where
  rows := v.rows
  own l t := v.own
  timeout l t := v.timeout
  sorted := v.sorted
  skip := v.skip
  linked t := v.linked
  once := v.once
  account n := by
    refine ⟨v.account n, fun h => ?_⟩
    rcases h with h | ⟨t, ht⟩
    · exact v.ended_lt h
    · exact v.born_lt (Ledger.pending_eq_some.1 ht).1
  early n k := v.early
  check fuel r' := v.check_end
  total t hlt := by
    obtain ⟨fuel, hs⟩ := start_total (t := t) v.rows hlt
    refine ⟨fuel, ?_⟩
    rw [Run.exec]
    split
    · rfl
    · rw [Option.isSome_map]
      exact hs

end OrderInv

/-- CORRECT: in every run whose starts meet `StartOk`. -/
theorem ordered_of_opOk (h : Reach (system cfg) (Run.orderOk cfg) r) : ∃ R, Ordered cfg r R := by
  obtain ⟨R, v⟩ : ∃ R, OrderInv cfg r R := by
    refine Reach.invariant (I := fun r => ∃ R, OrderInv cfg r R) (fun r hi => ⟨_, .init hi⟩) ?_ h
    rintro r op r' ⟨R, v⟩ hok ⟨fuel, hs⟩
    exact v.step hok hs
  exact ⟨R, v.ordered⟩

end Order

instance (cfg : Config) (r : Run (Fin 8)) (t : Fin 8) : Decidable (r.StartOk cfg t) := by
  unfold Run.StartOk
  infer_instance

instance (cfg : Config) (r : Run (Fin 8)) (op : Op (Fin 8)) : Decidable (r.orderOk cfg op) := by
  cases op <;> unfold Run.orderOk <;> infer_instance

/-- Two timers are started shortly before the tick wraps around. -/
theorem ordered_of_opOk_board :
    ∃ r, replay (Run.execIf (Run.orderOk oneRow) oneRow 9) (board (2 ^ 32 - 1)) [.start 2,
        .start 1, .tick 2, .check, .return, .check] = some r ∧ ∃ R, Ordered oneRow r R := by
  obtain ⟨r, hr⟩ := Option.isSome_iff_exists.1
    (show (replay (Run.execIf (Run.orderOk oneRow) oneRow 9) (board (2 ^ 32 - 1)) [.start 2,
        .start 1, .tick 2, .check, .return, .check]).isSome = true by
      decide +kernel)
  exact ⟨r, hr, ordered_of_opOk (Reach.of_replay (fun _ _ _ h => execIf_step h) _
    (Reach.init (board_init _)) hr)⟩

/-- A timer that has been left alone for half the range of ticks is overtaken by a start, and it is
    not due to a check. -/
theorem overdue_overtaken :
    (¬∀ r : Run (Fin 8), Reachable (system oneRow) r → ∃ R, Ordered oneRow r R) ∧
    ¬∀ r : Run (Fin 8), Reachable (system oneRow) r → ∀ fuel r', r.exec oneRow fuel .check = some r' →
      r'.pc = none → ∀ t, (r.pending t).isSome = true → (r.os.timer t).list = .hard →
        r.now < r.deadlineOf t := by
  constructor
  · intro hall
    have hrun : (replay (Run.exec oneRow 9) (board 0) [.start 1, .tick (2 ^ 31 + 5), .start 7]).map
        (fun r => (r.os.first oneRow .hard, (r.pending 1).isSome, (r.os.timer 1).list, r.deadlineOf 7,
          r.deadlineOf 1)) = some (.item 7, true, .hard, 2 ^ 31 + 12, 1) := by decide +kernel
    obtain ⟨r, hr, he⟩ := Option.map_eq_some_iff.1 hrun
    simp only [Prod.mk.injEq] at he
    obtain ⟨hfirst, hpending, hlist, h7, h1⟩ := he
    obtain ⟨R, v⟩ := hall r (Reach.of_replay (fun _ _ _ h => exec_step h) _
      (Reach.init (board_init 0)) hr)
    obtain ⟨b, hR⟩ := v.rows.first_item hfirst
    have hmem := (v.linked 1).2 hpending
    rw [hlist, hR] at hmem
    have hsorted := v.sorted .hard
    rw [hR, List.pairwise_cons] at hsorted
    have hbefore := hsorted.1 1 ((List.mem_cons.1 hmem).resolve_left (by decide))
    rw [Run.Before, h7, h1] at hbefore
    omega
  · intro hall
    have hrun : (replay (Run.exec oneRow 9) (board 0) [.start 1, .tick (2 ^ 31 + 5)]).map
        (fun r => ((r.exec oneRow 9 .check).map Run.pc, (r.pending 1).isSome, (r.os.timer 1).list, r.now,
          r.deadlineOf 1)) = some (some none, true, .hard, 2 ^ 31 + 5, 1) := by decide +kernel
    obtain ⟨r, hr, he⟩ := Option.map_eq_some_iff.1 hrun
    simp only [Prod.mk.injEq] at he
    obtain ⟨hcheck, hpending, hlist, hnow, h1⟩ := he
    obtain ⟨r', hr', hpc⟩ := Option.map_eq_some_iff.1 hcheck
    have hlt := hall r (Reach.of_replay (fun _ _ _ h => exec_step h) _
      (Reach.init (board_init 0)) hr) 9 r' hr' hpc 1 hpending hlist
    rw [hnow, h1] at hlt
    omega

end EasyCore.Timer
