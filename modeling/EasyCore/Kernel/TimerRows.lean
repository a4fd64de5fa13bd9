import EasyCore.Kernel.Timer
import EasyCore.Lib.SkipList

/-! The rows of the timer lists. On rows that are linked lists, `rt_timer_start` finds a place in
    each row and inserts the timer into the rows from some row down to the bottom; `_rt_timer_remove`
    takes it out of all rows. -/

namespace EasyCore.Timer
open Function EasyCore.Links EasyCore.Kernel

variable {τ : Type*}

/-- A time-out comes after the tick `timeout`, as `rt_timer_start` sees it. -/
def Timers.Later (s : Timers τ) (timeout : ℕ) (u : τ) : Prop :=
  0 < sub32 (s.timer u).timeoutTick timeout ∧
    sub32 (s.timer u).timeoutTick timeout < tickMax / 2

variable [DecidableEq τ] {s s' : Timers τ} {cfg : Config} {R : ℕ → TimerList → List τ}
  {l : TimerList} {t u : τ} {i timeout fuel : ℕ} {a b : List τ} {n : Node TimerList τ}

/-- What a store leaves alone. -/
theorem modTimer_timer {γ : Type*} {f : RtTimer → RtTimer} (g : RtTimer → γ)
    (h : g (f (s.timer t)) = g (s.timer t)) (u : τ) : g ((s.modTimer t f).timer u) = g (s.timer u) := by
  by_cases hu : u = t
  · subst hu
    simpa only [Timers.modTimer, update_self] using h
  · simp only [Timers.modTimer, update_of_ne hu]

theorem setActivated_list {b : Bool} (u : τ) :
    ((s.setActivated t b).timer u).list = (s.timer u).list :=
  modTimer_timer (f := fun timer => { timer with activated := b }) RtTimer.list rfl u

theorem setActivated_timeoutTick {b : Bool} (u : τ) :
    ((s.setActivated t b).timer u).timeoutTick = (s.timer u).timeoutTick :=
  modTimer_timer (f := fun timer => { timer with activated := b }) RtTimer.timeoutTick rfl u

theorem setActivated_initTick {b : Bool} (u : τ) :
    ((s.setActivated t b).timer u).initTick = (s.timer u).initTick :=
  modTimer_timer (f := fun timer => { timer with activated := b }) RtTimer.initTick rfl u

theorem setActivated_periodic {b : Bool} (u : τ) :
    ((s.setActivated t b).timer u).periodic = (s.timer u).periodic :=
  modTimer_timer (f := fun timer => { timer with activated := b }) RtTimer.periodic rfl u

theorem setActivated_self {b : Bool} : ((s.setActivated t b).timer t).activated = b := by
  simp [Timers.setActivated, Timers.modTimer]

theorem setActivated_of_ne {b : Bool} (hu : u ≠ t) : (s.setActivated t b).timer u = s.timer u :=
  update_of_ne hu _ _

/-- The rows down to the bottom one link the timers `R`, and what is in a row is in the row below
    it. -/
structure Rows (cfg : Config) (s : Timers τ) (R : ℕ → TimerList → List τ) : Prop where
  linked : ∀ i ≤ cfg.bottom, Linked (s.row i) (fun _ => True) (fun _ => True) (R i)
  nested : ∀ i < cfg.bottom, ∀ l, R i l ⊆ R (i + 1) l

/-! ### The search -/

omit [DecidableEq τ] in
/-- Only the whole list ends with its last node. -/
theorem before_eq_iff (hnd : (a ++ b).Nodup) : (before l a : Node TimerList τ) = before l (a ++ b) ↔
    b = [] := by
  refine ⟨fun h => ?_, fun h => by rw [h, List.append_nil]⟩
  rcases List.eq_nil_or_concat' b with hb | ⟨c, x, rfl⟩
  · exact hb
  · rw [← List.append_assoc, before_concat] at h
    refine absurd h (before_ne_item l fun hx => ?_)
    exact (List.nodup_append.1 hnd).2.2 x hx x (by simp) rfl

/-- The search ends behind a timer that is not later, in front of one that is. -/
theorem rowSearch_spec (q : Linked (s.row i) (fun _ => True) (fun _ => True) (R i)) :
    ∀ {fuel : ℕ} {a b : List τ}, R i l = a ++ b →
      rowSearch s l timeout i fuel (before l a) = some n →
      ∃ b₁ b₂, b = b₁ ++ b₂ ∧ n = before l (a ++ b₁) ∧ (∀ u ∈ b₁, ¬s.Later timeout u) ∧
        ∀ u ∈ b₂.head?, s.Later timeout u
  | 0, _, _, _, h => absurd h (by simp [rowSearch])
  | fuel + 1, a, b, hR, h => by
    have hprev := q.head_prev (h := l) trivial
    have hnext := (q.link trivial hR).1
    rw [rowSearch, hprev, hR] at h
    have hnd : (a ++ b).Nodup := hR ▸ q.nodup trivial
    cases b with
    | nil =>
      rw [if_pos ((before_eq_iff hnd).2 rfl)] at h
      obtain rfl := Option.some.inj h
      exact ⟨[], [], rfl, by simp, by simp, by simp⟩
    | cons u b =>
      rw [if_neg (fun e => absurd ((before_eq_iff hnd).1 e) (by simp)), hnext, after_cons] at h
      dsimp only at h
      have hR' : R i l = (a ++ [u]) ++ b := by simpa using hR
      have go : ¬s.Later timeout u → rowSearch s l timeout i fuel (.item u) = some n →
          ∃ b₁ b₂, u :: b = b₁ ++ b₂ ∧ n = before l (a ++ b₁) ∧ (∀ u ∈ b₁, ¬s.Later timeout u) ∧
            ∀ u ∈ b₂.head?, s.Later timeout u := by
        intro hu hs
        rw [← before_concat l a u] at hs
        obtain ⟨b₁, b₂, rfl, rfl, h₁, h₂⟩ := rowSearch_spec q hR' hs
        refine ⟨u :: b₁, b₂, rfl, by simp, fun v hv => ?_, h₂⟩
        rcases List.mem_cons.1 hv with rfl | hv
        · exact hu
        · exact h₁ v hv
      split at h
      next h0 => exact go (fun hl => absurd hl.1 (by omega)) h
      next h0 =>
        split at h
        next hlt =>
          obtain rfl := Option.some.inj h
          exact ⟨[], u :: b, rfl, by simp, by simp, fun v hv => by
            obtain rfl := Option.some.inj hv
            exact ⟨Nat.pos_of_ne_zero h0, hlt⟩⟩
        next hge => exact go (fun hl => hge hl.2) h

/-- The search comes to an end. -/
theorem rowSearch_total (q : Linked (s.row i) (fun _ => True) (fun _ => True) (R i)) :
    ∀ {fuel : ℕ} {a b : List τ}, R i l = a ++ b → b.length < fuel →
      (rowSearch s l timeout i fuel (before l a)).isSome
  | 0, _, _, _, hf => absurd hf (Nat.not_lt_zero _)
  | fuel + 1, a, b, hR, hf => by
    have hprev := q.head_prev (h := l) trivial
    have hnext := (q.link trivial hR).1
    rw [rowSearch, hprev, hR]
    cases b with
    | nil => simp
    | cons u b =>
      have hR' : R i l = (a ++ [u]) ++ b := by simpa using hR
      have ih := rowSearch_total q hR' (by simpa using hf)
      rw [before_concat] at ih
      split
      · rfl
      · rw [hnext, after_cons]
        dsimp only
        split
        · exact ih
        · split
          · rfl
          · exact ih

omit [DecidableEq τ] in
/-- A node of a row is a node of the row below. -/
theorem Rows.split (r : Rows cfg s R) (hi : i < cfg.bottom) (hR : R i l = a ++ b) :
    ∃ a' b', R (i + 1) l = a' ++ b' ∧ (before l a' : Node TimerList τ) = before l a ∧
      a'.getLast? = a.getLast? := by
  rcases List.eq_nil_or_concat' a with rfl | ⟨c, x, rfl⟩
  · exact ⟨[], R (i + 1) l, rfl, rfl, rfl⟩
  · have hx : x ∈ R (i + 1) l := r.nested i hi l (by simp [hR])
    obtain ⟨a', b', hab⟩ := List.append_of_mem hx
    exact ⟨a' ++ [x], b', by simpa using hab, by simp, by simp⟩

/-- The place that `rt_timer_start` finds in each row. -/
theorem rowHead_spec (r : Rows cfg s R) : ∀ {i : ℕ} {n : Node TimerList τ}, i ≤ cfg.bottom →
    rowHead s l timeout fuel i = some n →
    ∃ a b, R i l = a ++ b ∧ n = before l a ∧ (∀ u ∈ a.getLast?, ¬s.Later timeout u) ∧
      ∀ u ∈ b.head?, s.Later timeout u
  | 0, n, hi, h => by
    obtain ⟨b₁, b₂, hb, rfl, h₁, h₂⟩ :=
      rowSearch_spec (a := []) (r.linked 0 hi) (List.nil_append _).symm h
    exact ⟨b₁, b₂, hb, rfl, fun u hu => h₁ u (List.mem_of_getLast? hu), h₂⟩
  | i + 1, n, hi, h => by
    obtain ⟨m, hm, h⟩ := Option.bind_eq_some_iff.1 h
    obtain ⟨a, b, hR, rfl, hlast, -⟩ := rowHead_spec r (Nat.le_of_succ_le hi) hm
    obtain ⟨a', b', hR', hbefore, hlast'⟩ := r.split hi hR
    rw [← hbefore] at h
    obtain ⟨b₁, b₂, rfl, rfl, h₁, h₂⟩ := rowSearch_spec (r.linked (i + 1) hi) hR' h
    refine ⟨a' ++ b₁, b₂, by simpa using hR', rfl, fun u hu => ?_, h₂⟩
    rcases List.eq_nil_or_concat' b₁ with rfl | ⟨c, x, rfl⟩
    · rw [List.append_nil, hlast'] at hu
      exact hlast u hu
    · rw [← List.append_assoc, List.getLast?_concat] at hu
      obtain rfl := Option.some.inj hu
      exact h₁ x (by simp)

/-- It finds one, given enough steps. -/
theorem rowHead_total (r : Rows cfg s R) (hf : ∀ i ≤ cfg.bottom, (R i l).length < fuel) :
    ∀ {i : ℕ}, i ≤ cfg.bottom → (rowHead s l timeout fuel i).isSome
  | 0, hi => rowSearch_total (a := []) (r.linked 0 hi) (List.nil_append _).symm (hf 0 hi)
  | i + 1, hi => by
    obtain ⟨m, hm⟩ := Option.isSome_iff_exists.1 (rowHead_total r hf (Nat.le_of_succ_le hi))
    obtain ⟨a, b, hR, rfl, -⟩ := rowHead_spec r (Nat.le_of_succ_le hi) hm
    obtain ⟨a', b', hR', hbefore, -⟩ := r.split hi hR
    have hlen := hf (i + 1) hi
    rw [hR', List.length_append] at hlen
    rw [rowHead, hm, Option.bind_some, ← hbefore]
    exact rowSearch_total (r.linked (i + 1) hi) hR' (by omega)

/-- The rows above one that has been searched have been searched. -/
theorem rowHead_isSome {j : ℕ} (h : (rowHead s l timeout fuel j).isSome) (hi : i ≤ j) :
    (rowHead s l timeout fuel i).isSome := by
  induction j with
  | zero => rwa [Nat.le_zero.1 hi]
  | succ j ih =>
    rcases Nat.of_le_succ hi with hi | rfl
    · obtain ⟨n, hn⟩ := Option.isSome_iff_exists.1 h
      obtain ⟨m, hm, -⟩ := Option.bind_eq_some_iff.1 hn
      exact ih (by rw [hm]; rfl) hi
    · exact h

/-! ### Inserting and removing -/

/-- The rows into which a timer is inserted: from some row down. -/
theorem insertUp_spec {mask : ℕ} {head : ℕ → Node TimerList τ} :
    ∀ (n nr : ℕ) (row : ℕ → RtList (Node TimerList τ)), ∃ k ≤ n, ∀ i,
      insertUp mask t head n nr row i =
        if k ≤ i ∧ i < n then rtListInsertAfter (row i) (head i) (.item t) else row i
  | 0, _, row => ⟨0, le_refl 0, fun i => by simp [insertUp]⟩
  | n + 1, nr, row => by
    rw [insertUp]
    split
    · obtain ⟨k, hk, h⟩ := insertUp_spec n (nr >>> ((mask + 1) >>> 1))
        (update row n (rtListInsertAfter (row n) (head n) (.item t)))
      refine ⟨k, Nat.le_succ_of_le hk, fun i => ?_⟩
      rw [h]
      by_cases hi : i = n
      · subst hi
        simp [hk]
      · rw [update_of_ne hi]
        exact if_congr (by omega) rfl rfl
    · exact ⟨n + 1, le_refl _, fun i => by rw [if_neg (by omega)]⟩

/-- The rows with `t` inserted behind `A i` from the row `k` on. -/
def insertAt (R : ℕ → TimerList → List τ) (l : TimerList) (t : τ) (A B : ℕ → List τ) (k i : ℕ) :
    TimerList → List τ :=
  if k ≤ i then update (R i) l (A i ++ t :: B i) else R i

omit [DecidableEq τ] in
theorem mem_insertAt {A B : ℕ → List τ} {k : ℕ} {l' : TimerList} (hR : R i l = A i ++ B i) :
    u ∈ insertAt R l t A B k i l' ↔ u ∈ R i l' ∨ (k ≤ i ∧ l' = l ∧ u = t) := by
  unfold insertAt
  split
  next hk =>
    by_cases hl : l' = l
    · subst hl
      simp only [update_self, hR, List.mem_append, List.mem_cons, hk, true_and]
      tauto
    · simp [hl]
  next hk => simp [hk]

omit [DecidableEq τ] in
/-- The other list is left alone. -/
theorem insertAt_of_ne {A B : ℕ → List τ} {k : ℕ} {l' : TimerList} (h : l' ≠ l) :
    insertAt R l t A B k i l' = R i l' := by
  unfold insertAt
  split
  · exact update_of_ne h ..
  · rfl

omit [DecidableEq τ] in
theorem insertAt_of_le {A B : ℕ → List τ} {k : ℕ} (h : k ≤ i) :
    insertAt R l t A B k i l = A i ++ t :: B i := by
  rw [insertAt, if_pos h, update_self]

omit [DecidableEq τ] in
/-- A row with the timer inserted is still a sublist of the row below it. -/
theorem insertAt_sublist {A B : ℕ → List τ} {k : ℕ} {l' : TimerList}
    (h : (R i l').Sublist (R (i + 1) l')) (hR : R i l = A i ++ B i)
    (hAB : l' = l → (A i).Sublist (A (i + 1)) ∧ (B i).Sublist (B (i + 1))) :
    (insertAt R l t A B k i l').Sublist (insertAt R l t A B k (i + 1) l') := by
  by_cases hl : l' = l
  · subst hl
    obtain ⟨hboth, hlower⟩ := SkipList.sublist_insert (x := t) (hAB rfl)
    rcases lt_trichotomy k (i + 1) with hk | hk | hk
    · rw [insertAt_of_le (Nat.lt_succ_iff.1 hk), insertAt_of_le hk.le]
      exact hboth
    · rw [insertAt_of_le hk.le, insertAt, if_neg (by omega), hR]
      exact hlower
    · rw [insertAt, insertAt, if_neg (by omega), if_neg (by omega)]
      exact h
  · rw [insertAt_of_ne hl, insertAt_of_ne hl]
    exact h

/-- A timer that is in no row is started. -/
theorem start_spec {e : ℤ} (r : Rows cfg s R) (ha : (s.timer t).activated = false)
    (ht : ∀ i ≤ cfg.bottom, ∀ l, t ∉ R i l) (h : rtTimerStart cfg fuel t s = some (e, s')) :
    e = rtEok ∧ (s.timer t).initTick < tickMax / 2 ∧ s'.tick = s.tick ∧
    s'.timer = update s.timer t { s.timer t with
      activated := true
      timeoutTick := (s.tick + (s.timer t).initTick) % 2 ^ 32 } ∧
    ∃ A B k, k ≤ cfg.bottom ∧
      (∀ i ≤ cfg.bottom, R i (s.timer t).list = A i ++ B i ∧
        (∀ u ∈ (A i).getLast?, ¬s'.Later (s'.timer t).timeoutTick u) ∧
        ∀ u ∈ (B i).head?, s'.Later (s'.timer t).timeoutTick u) ∧
      Rows cfg s' (insertAt R (s.timer t).list t A B k) := by
  unfold rtTimerStart at h
  rw [if_neg (by simp [ha])] at h
  obtain ⟨hlt, h⟩ := Option.ite_none_right_eq_some.1 h
  dsimp only at h
  generalize htimeout : (s.tick + (s.timer t).initTick) % 2 ^ 32 = timeout at h ⊢
  generalize hs₁ : s.modTimer t (fun timer => { timer with timeoutTick := timeout }) = s₁ at h
  have htimer₁ : s₁.timer = update s.timer t { s.timer t with timeoutTick := timeout } := by
    rw [← hs₁]
    rfl
  have hrow₁ : s₁.row = s.row := by rw [← hs₁]; rfl
  have hlist : (s₁.timer t).list = (s.timer t).list := by rw [htimer₁, update_self]; rfl
  have r₁ : Rows cfg s₁ R := ⟨fun i hi => hrow₁ ▸ r.linked i hi, r.nested⟩
  rw [hlist] at h
  obtain ⟨hsome, h⟩ := Option.ite_none_right_eq_some.1 h
  obtain ⟨rfl, hs'⟩ := Prod.mk.inj (Option.some.inj h)
  -- the places found
  have hplace : ∀ i, ∃ a b, i ≤ cfg.bottom →
      (rowHead s₁ (s.timer t).list timeout fuel i).getD (.head .hard) =
        before (s.timer t).list a ∧ R i (s.timer t).list = a ++ b ∧
      (∀ u ∈ a.getLast?, ¬s₁.Later timeout u) ∧ ∀ u ∈ b.head?, s₁.Later timeout u := by
    intro i
    by_cases hi : i ≤ cfg.bottom
    · obtain ⟨n, hn⟩ := Option.isSome_iff_exists.1 (rowHead_isSome hsome hi)
      obtain ⟨a, b, hR, rfl, hlast, hhead⟩ := rowHead_spec r₁ hi hn
      exact ⟨a, b, fun _ => ⟨by rw [hn]; rfl, hR, hlast, hhead⟩⟩
    · exact ⟨[], [], fun h => absurd h hi⟩
  choose A B hAB using hplace
  obtain ⟨k, hk, hins⟩ := insertUp_spec cfg.bottom ((s₁.randomNr + 1) % 2 ^ 32)
    (update s₁.row cfg.bottom (rtListInsertAfter (s₁.row cfg.bottom)
      ((rowHead s₁ (s.timer t).list timeout fuel cfg.bottom).getD (.head .hard)) (.item t)))
  have hrow : ∀ i ≤ cfg.bottom, s'.row i = if k ≤ i then
      rtListInsertAfter (s.row i) (before (s.timer t).list (A i)) (.item t) else s.row i := by
    intro i hi
    rw [← hs']
    refine (hins i).trans ?_
    rw [hrow₁, (hAB i hi).1]
    by_cases hib : i = cfg.bottom
    · subst hib
      simp [hk, (hAB _ le_rfl).1]
    · rw [update_of_ne hib]
      exact if_congr (by omega) rfl rfl
  have htimer : s'.timer = update s.timer t { s.timer t with
      activated := true
      timeoutTick := timeout } := by
    rw [← hs']
    simp [Timers.setActivated, Timers.modTimer, timerInsert, htimer₁]
  have hlater : ∀ u, s'.Later timeout u ↔ s₁.Later timeout u := by
    intro u
    have : (s'.timer u).timeoutTick = (s₁.timer u).timeoutTick := by
      rw [htimer, htimer₁]
      by_cases hu : u = t
      · rw [hu, update_self, update_self]
      · rw [update_of_ne hu, update_of_ne hu]
    rw [Timers.Later, Timers.Later, this]
  refine ⟨rfl, hlt, by rw [← hs', ← hs₁]; rfl, htimer, A, B, k, hk, fun i hi => ?_,
    fun i hi => ?_, fun i hi l u hu => ?_⟩
  · simp only [htimer, update_self, hlater]
    exact (hAB i hi).2
  · rw [hrow i hi, insertAt]
    split
    · exact linked_insertAfter (r.linked i hi) trivial (hAB i hi).2.1 trivial
        fun l _ => ht i hi l
    · exact r.linked i hi
  · rw [mem_insertAt (hAB i (Nat.le_of_lt hi)).2.1] at hu
    rw [mem_insertAt (hAB (i + 1) hi).2.1]
    exact hu.imp (fun hu => r.nested i hi l hu) fun hu => ⟨Nat.le_succ_of_le hu.1, hu.2⟩

/-- A start is done, given enough steps. -/
theorem start_total (r : Rows cfg s R) (hlt : (s.timer t).initTick < tickMax / 2) :
    ∃ fuel, (rtTimerStart cfg fuel t s).isSome := by
  obtain ⟨fuel, hf⟩ : ∃ fuel, ∀ i ≤ cfg.bottom, (R i (s.timer t).list).length < fuel := by
    refine ⟨((List.range (cfg.bottom + 1)).map fun i => (R i (s.timer t).list).length).sum + 1,
      fun i hi => Nat.lt_succ_of_le (List.le_sum_of_mem (List.mem_map.2 ⟨i, ?_, rfl⟩))⟩
    rw [List.mem_range]
    omega
  refine ⟨fuel, ?_⟩
  unfold rtTimerStart
  by_cases ha : (s.timer t).activated
  · rw [if_pos ha]
    rfl
  · rw [if_neg ha, if_pos hlt]
    dsimp only
    have r₁ : Rows cfg (s.modTimer t fun timer => { timer with
        timeoutTick := (s.tick + (s.timer t).initTick) % 2 ^ 32 }) R := ⟨r.linked, r.nested⟩
    rw [if_pos]
    · rfl
    · refine rowHead_total r₁ (fun i hi => ?_) le_rfl
      simpa [Timers.modTimer, RtTimer.list] using hf i hi

omit [DecidableEq τ] in
/-- The first timer of a list. -/
theorem Rows.first_eq (r : Rows cfg s R) : s.first cfg l = after l (R cfg.bottom l) :=
  ((r.linked cfg.bottom le_rfl).link (a := []) trivial (List.nil_append _).symm).1

omit [DecidableEq τ] in
theorem Rows.first_item (r : Rows cfg s R) (h : s.first cfg l = .item t) :
    ∃ b, R cfg.bottom l = t :: b := by
  rw [r.first_eq] at h
  cases hR : R cfg.bottom l with
  | nil =>
    rw [hR, after_nil] at h
    exact absurd h (by simp)
  | cons u b =>
    rw [hR, after_cons] at h
    exact ⟨b, by rw [Node.item.inj h]⟩

omit [DecidableEq τ] in
theorem Rows.first_head {l' : TimerList} (r : Rows cfg s R) (h : s.first cfg l = .head l') :
    R cfg.bottom l = [] := by
  rw [r.first_eq] at h
  cases hR : R cfg.bottom l with
  | nil => rfl
  | cons u b =>
    rw [hR, after_cons] at h
    exact absurd h (by simp)

/-- A timer is taken out of all rows. -/
theorem Rows.remove (r : Rows cfg s R) (t : τ) :
    Rows cfg (timerRemove t s) fun i => without (R i) t := by
  refine ⟨fun i hi => linked_remove (r.linked i hi) trivial, fun i hi l u hu => ?_⟩
  have hnd := (r.linked i (Nat.le_of_lt hi)).nodup (h := l) trivial
  have hu' : u ≠ t := fun e => not_mem_without hnd (e ▸ hu)
  rw [mem_without_of_ne hu'] at hu ⊢
  exact r.nested i hi l hu

end EasyCore.Timer
