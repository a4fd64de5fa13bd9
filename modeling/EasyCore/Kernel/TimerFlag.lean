import EasyCore.Kernel.TimerRows

/-! The flag `RT_TIMER_FLAG_ACTIVATED`. `rt_timer_start` and `rt_timer_stop` set it and clear it with
    the links; `rt_timer_detach` leaves it, and `rt_timer_check` clears it without a look at the
    links when the function of a timer has returned. -/

namespace EasyCore.Timer
open Function EasyCore.Links EasyCore.Kernel EasyCore.Runs

variable {τ : Type*}

/-- The timers `R` are linked in the rows; in the bottom row a timer is on its own list and is
    activated. -/
structure Base (cfg : Config) (s : Timers τ) (R : ℕ → TimerList → List τ) : Prop where
  rows : Rows cfg s R
  own : ∀ {l t}, t ∈ R cfg.bottom l → (s.timer t).list = l
  active : ∀ {l t}, t ∈ R cfg.bottom l → (s.timer t).activated = true

namespace Base
variable [DecidableEq τ] {s s' : Timers τ} {cfg : Config} {R : ℕ → TimerList → List τ}
  {l : TimerList} {t u : τ} {i fuel : ℕ} {e : ℤ}

omit [DecidableEq τ] in
/-- What is in a row is in the bottom row. -/
theorem mem_bottom (v : Base cfg s R) (hi : i ≤ cfg.bottom) (h : t ∈ R i l) :
    t ∈ R cfg.bottom l := by
  induction hi using Nat.decreasingInduction with
  | self => exact h
  | of_succ i hi ih => exact ih (v.rows.nested i hi l h)

omit [DecidableEq τ] in
/-- A timer that is not activated is in no row. -/
theorem not_mem (v : Base cfg s R) (ha : (s.timer t).activated = false) (hi : i ≤ cfg.bottom) :
    t ∉ R i l := fun h => absurd (v.active (v.mem_bottom hi h)) (by simp [ha])

/-- A timer is linked if its node in the bottom row is. -/
theorem linked_iff (v : Base cfg s R) : s.linked cfg t = true ↔ t ∈ R cfg.bottom (s.timer t).list := by
  have q := v.rows.linked cfg.bottom le_rfl
  rw [Timers.linked, rtListIsempty, Bool.not_eq_true', decide_eq_false_iff_not]
  constructor
  · intro h
    by_contra hn
    refine h (q.alone trivial fun l _ hl => hn ?_).1
    rw [v.own hl]
    exact hl
  · intro h he
    obtain ⟨a, b, hL⟩ := List.append_of_mem h
    have hnd := q.nodup (h := (s.timer t).list) trivial
    rw [hL, List.nodup_middle, List.nodup_cons, List.mem_append, not_or] at hnd
    rw [q.item_next trivial hL] at he
    exact after_ne_item _ hnd.1.2 he

theorem not_linked (v : Base cfg s R) (h : s.linked cfg t = false) : t ∉ R cfg.bottom l := by
  intro hl
  obtain rfl := v.own hl
  rw [← v.linked_iff, h] at hl
  exact absurd hl (by simp)

/-- Storing into a timer. -/
theorem modTimer (v : Base cfg s R) {f : RtTimer → RtTimer}
    (hs : (f (s.timer t)).softTimer = (s.timer t).softTimer)
    (ha : ∀ l, t ∈ R cfg.bottom l → (f (s.timer t)).activated = true) :
    Base cfg (s.modTimer t f) R := by
  refine ⟨⟨v.rows.linked, v.rows.nested⟩, fun {l u} hu => ?_, fun {l u} hu => ?_⟩
  · by_cases hut : u = t
    · subst hut
      simp only [Timers.modTimer, update_self, RtTimer.list, hs]
      exact v.own hu
    · simp only [Timers.modTimer, update_of_ne hut]
      exact v.own hu
  · by_cases hut : u = t
    · subst hut
      simp only [Timers.modTimer, update_self]
      exact ha l hu
    · simp only [Timers.modTimer, update_of_ne hut]
      exact v.active hu

/-- A timer that is not linked is deactivated. -/
theorem deactivate (v : Base cfg s R) (h : ∀ l, t ∉ R cfg.bottom l) :
    Base cfg (s.setActivated t false) R :=
  v.modTimer rfl fun l hl => absurd hl (h l)

theorem remove (v : Base cfg s R) (t : τ) : Base cfg (timerRemove t s) fun i => without (R i) t :=
  ⟨v.rows.remove t, fun hu => v.own (List.mem_of_mem_erase hu),
    fun hu => v.active (List.mem_of_mem_erase hu)⟩

/-- It is linked no more. -/
theorem not_mem_remove (v : Base cfg s R) : t ∉ without (R cfg.bottom) t l :=
  not_mem_without ((v.rows.linked cfg.bottom le_rfl).nodup trivial)

/-- A timer is started: it is put in its list between `A i` and `B i`, in the rows from `k` down. -/
theorem start (v : Base cfg s R) (ha : (s.timer t).activated = false)
    (h : rtTimerStart cfg fuel t s = some (e, s')) :
    s'.tick = s.tick ∧
    s'.timer = update s.timer t { s.timer t with
      activated := true
      timeoutTick := (s.tick + (s.timer t).initTick) % 2 ^ 32 } ∧
    (s.timer t).initTick < tickMax / 2 ∧
    ∃ A B k, k ≤ cfg.bottom ∧
      (∀ i ≤ cfg.bottom, R i (s.timer t).list = A i ++ B i ∧
        (∀ u ∈ (A i).getLast?, ¬s'.Later (s'.timer t).timeoutTick u) ∧
        ∀ u ∈ (B i).head?, s'.Later (s'.timer t).timeoutTick u) ∧
      Base cfg s' (insertAt R (s.timer t).list t A B k) := by
  obtain ⟨-, hlt, htick, htimer, A, B, k, hk, hAB, hrows⟩ :=
    start_spec v.rows ha (fun i hi l => v.not_mem ha hi) h
  refine ⟨htick, htimer, hlt, A, B, k, hk, hAB, hrows, fun {l u} hu => ?_, fun {l u} hu => ?_⟩
  all_goals
    rw [mem_insertAt (hAB _ le_rfl).1] at hu
    by_cases hut : u = t
  · subst hut
    rw [htimer, update_self]
    exact (hu.resolve_left (v.not_mem ha le_rfl)).2.1.symm
  · rw [htimer, update_of_ne hut]
    exact v.own (hu.resolve_right fun h => hut h.2.2)
  · rw [hut, htimer, update_self]
  · rw [htimer, update_of_ne hut]
    exact v.active (hu.resolve_right fun h => hut h.2.2)

omit [DecidableEq τ] in
/-- Nothing is linked at first. -/
theorem init {r : Run τ} (h : r.Init) : Base cfg r.os fun _ _ => [] := by
  refine ⟨⟨fun i _ => ⟨fun l _ => ?_, by simp, by simp, fun {t} _ _ => ?_⟩, by simp⟩, by simp, by simp⟩
  · exact .singleton ((h.1 i).1 l).1 ((h.1 i).1 l).2
  · exact (h.1 i).2 t

end Base

/-! ### What a step does -/

section Effect
variable [DecidableEq τ] {r r' : Run τ} {cfg : Config} {fuel : ℕ}

/-- What one step does to the state and to what has happened. -/
inductive Effect (cfg : Config) (fuel : ℕ) (r : Run τ) : Op τ → Run τ → Prop
  | nothing {op : Op τ} : Effect cfg fuel r op r
  | start {t : τ} {e : ℤ} {s' : Timers τ} (ha : (r.os.timer t).activated = false)
      (hs : rtTimerStart cfg fuel t r.os = some (e, s')) :
      Effect cfg fuel r (.start t) { r.started t with os := s' }
  | stop {t : τ} (ha : (r.os.timer t).activated = true) :
      Effect cfg fuel r (.stop t)
        { r.ended t with os := (timerRemove t r.os).setActivated t false }
  | control {t : τ} {cmd : Cmd} :
      Effect cfg fuel r (.control t cmd) { r with os := rtTimerControl t cmd r.os }
  | detach {t : τ} :
      Effect cfg fuel r (.detach t) { r.ended t with os := timerRemove t r.os }
  | tick {n : ℕ} :
      Effect cfg fuel r (.tick n)
        { r with os := { r.os with tick := (r.os.tick + n) % 2 ^ 32 }, now := r.now + n }
  | fire {t : τ} (hpc : r.pc = none) (hfirst : r.os.first cfg .hard = .item t)
      (hdue : r.os.due t = true) :
      Effect cfg fuel r .check { r.fire t with os := timerRemove t r.os, pc := some t }
  | restart {t : τ} {e : ℤ} {s' : Timers τ} (hpc : r.pc = some t)
      (hp : (r.os.timer t).periodic = true ∧ (r.os.timer t).activated = true)
      (hs : rtTimerStart cfg fuel t (r.os.setActivated t false) = some (e, s')) :
      Effect cfg fuel r .return { r.started t with os := s', pc := none }
  | finish {t : τ} (hpc : r.pc = some t)
      (hp : ¬((r.os.timer t).periodic = true ∧ (r.os.timer t).activated = true)) :
      Effect cfg fuel r .return { r with os := r.os.setActivated t false, pc := none }

theorem exec_effect {op : Op τ} (h : r.exec cfg fuel op = some r') : Effect cfg fuel r op r' := by
  cases op with
  | start t =>
    rw [Run.exec] at h
    split at h
    · obtain rfl := Option.some.inj h
      exact .nothing
    next ha =>
      obtain ⟨⟨e, s'⟩, hs, rfl⟩ := Option.map_eq_some_iff.1 h
      exact .start (by simpa using ha) hs
  | stop t =>
    rw [Run.exec] at h
    split at h
    next ha =>
      obtain rfl := Option.some.inj h
      rw [rtTimerStop, if_pos ha]
      exact .stop ha
    · obtain rfl := Option.some.inj h
      exact .nothing
  | control t cmd =>
    obtain rfl := Option.some.inj h
    exact .control
  | detach t =>
    obtain rfl := Option.some.inj h
    exact .detach
  | tick n =>
    obtain rfl := Option.some.inj h
    exact .tick
  | check =>
    obtain ⟨hpc, h⟩ := Option.ite_none_right_eq_some.1 h
    split at h
    · obtain rfl := Option.some.inj h
      exact .nothing
    next t hfirst =>
      split at h
      next hdue =>
        obtain rfl := Option.some.inj h
        exact .fire hpc hfirst hdue
      · obtain rfl := Option.some.inj h
        exact .nothing
  | «return» =>
    obtain ⟨t, hpc, h⟩ := Option.bind_eq_some_iff.1 h
    obtain ⟨os, hs, rfl⟩ := Option.map_eq_some_iff.1 h
    unfold timerReturn at hs
    split at hs
    next hp =>
      obtain ⟨⟨e, s'⟩, hs', rfl⟩ := Option.map_eq_some_iff.1 hs
      rw [if_pos hp]
      exact .restart hpc hp hs'
    next hp =>
      obtain rfl := Option.some.inj hs
      rw [if_neg hp]
      exact .finish hpc hp

end Effect

/-! ### The flag and the links -/

section Flag
variable [DecidableEq τ]

/-- Between checks the rows are lists, and a timer is activated exactly when it is on a list, which
    is its own. -/
def FlagOk (cfg : Config) (r : Run τ) : Prop :=
  r.pc = none → ∃ R, Rows cfg r.os R ∧
    (∀ l t, t ∈ R cfg.bottom l → (r.os.timer t).list = l) ∧
    ∀ t, (r.os.timer t).activated = true ↔ t ∈ R cfg.bottom (r.os.timer t).list

/-- No timer is detached while it is activated, but in its own function; and no function returns
    while its own timer is linked. -/
def Run.flagOk (cfg : Config) (r : Run τ) : Op τ → Prop
  | .detach t => (r.os.timer t).activated = true → r.pc = some t
  | .return => ∀ t ∈ r.pc, r.os.linked cfg t = false
  | _ => True

instance (cfg : Config) (r : Run τ) (op : Op τ) : Decidable (r.flagOk cfg op) := by
  cases op <;> unfold Run.flagOk <;> infer_instance

/-- The invariant: but for the timer whose function runs, an activated timer is linked. -/
structure FlagInv (cfg : Config) (r : Run τ) (R : ℕ → TimerList → List τ) : Prop extends
    Base cfg r.os R where
  linked : ∀ {t}, (r.os.timer t).activated = true → r.pc ≠ some t →
    t ∈ R cfg.bottom (r.os.timer t).list

variable {r r' : Run τ} {cfg : Config} {R : ℕ → TimerList → List τ} {t u : τ} {fuel : ℕ}
  {s' : Timers τ} {e : ℤ}

/-- What a start does to the flag and the links of each timer. -/
theorem FlagInv.start (v : FlagInv cfg r R) {s : Timers τ} (hs : Base cfg s R)
    (hother : ∀ u, u ≠ t → s.timer u = r.os.timer u) (ha : (s.timer t).activated = false)
    (h : rtTimerStart cfg fuel t s = some (e, s')) (hos : r'.os = s')
    (hpc : ∀ u, u ≠ t → r'.pc ≠ some u → r.pc ≠ some u) : ∃ R', FlagInv cfg r' R' := by
  obtain ⟨-, htimer, -, A, B, k, hk, hAB, hb⟩ := hs.start ha h
  refine ⟨_, hos ▸ hb, fun {u} hu hp => ?_⟩
  rw [hos, htimer] at hu ⊢
  rw [mem_insertAt (hAB _ le_rfl).1]
  by_cases hut : u = t
  · subst hut
    rw [update_self]
    exact .inr ⟨hk, rfl, rfl⟩
  · rw [update_of_ne hut, hother u hut] at hu ⊢
    exact .inl (v.linked hu (hpc u hut hp))

/-- A timer is taken out of its list. -/
theorem FlagInv.remove (v : FlagInv cfg r R) {s : Timers τ} (hs : Base cfg s fun i => without (R i) t)
    (hother : ∀ u, u ≠ t → s.timer u = r.os.timer u)
    (ht : (s.timer t).activated = true → r'.pc = some t) (hos : r'.os = s)
    (hpc : ∀ u, u ≠ t → r'.pc ≠ some u → r.pc ≠ some u) : ∃ R', FlagInv cfg r' R' := by
  refine ⟨_, hos ▸ hs, fun {u} hu hp => ?_⟩
  rw [hos] at hu ⊢
  have hut : u ≠ t := fun h => hp (h ▸ ht (h ▸ hu))
  rw [hother u hut] at hu ⊢
  rw [mem_without_of_ne hut]
  exact v.linked hu (hpc u hut hp)

/-- A timer is stored into, but for its flags. -/
theorem FlagInv.modTimer (v : FlagInv cfg r R) {f : RtTimer → RtTimer}
    (hs : (f (r.os.timer t)).softTimer = (r.os.timer t).softTimer)
    (ha : (f (r.os.timer t)).activated = (r.os.timer t).activated) :
    FlagInv cfg { r with os := r.os.modTimer t f } R := by
  refine ⟨v.toBase.modTimer hs fun l hl => ha.trans (v.active hl), fun {u} hu hp => ?_⟩
  by_cases hut : u = t
  · subst hut
    simp only [Timers.modTimer, update_self, ha, RtTimer.list, hs] at hu ⊢
    exact v.linked hu hp
  · simp only [Timers.modTimer, update_of_ne hut] at hu ⊢
    exact v.linked hu hp

/-- One step keeps the invariant. -/
theorem FlagInv.step (v : FlagInv cfg r R) {op : Op τ} (hok : r.flagOk cfg op)
    (h : r.exec cfg fuel op = some r') : ∃ R', FlagInv cfg r' R' := by
  cases exec_effect h with
  | nothing => exact ⟨R, v⟩
  | start ha hs => exact v.start v.toBase (fun _ _ => rfl) ha hs rfl fun _ _ hp => hp
  | stop ha =>
    exact v.remove ((v.toBase.remove _).deactivate fun l => v.not_mem_remove)
      (fun u hu => setActivated_of_ne hu) (by simp [setActivated_self]) rfl fun _ _ hp => hp
  | @control t cmd => exact ⟨R, v.modTimer (by cases cmd <;> rfl) (by cases cmd <;> rfl)⟩
  | detach => exact v.remove (v.toBase.remove _) (fun _ _ => rfl) hok rfl fun _ _ hp => hp
  | tick => exact ⟨R, ⟨⟨v.rows.linked, v.rows.nested⟩, v.own, v.active⟩, v.linked⟩
  | fire hpc =>
    exact v.remove (v.toBase.remove _) (fun _ _ => rfl) (fun _ => rfl) rfl fun u hu _ hp => by
      simp [hpc] at hp
  | @restart t e s' hpc hp hs =>
    have hd := v.toBase.deactivate fun l => v.not_linked (hok t hpc)
    refine v.start hd (fun u hu => setActivated_of_ne hu) (by simp [setActivated_self]) hs rfl ?_
    exact fun u hu _ hp => hu (Option.some.inj (hp.symm.trans hpc))
  | @finish t hpc hp =>
    have hd := v.toBase.deactivate fun l => v.not_linked (hok t hpc)
    refine ⟨R, hd, fun {u} hu _ => ?_⟩
    have hut : u ≠ t := by
      rintro rfl
      simp [setActivated_self] at hu
    simp only [setActivated_of_ne hut] at hu ⊢
    exact v.linked hu fun hp => hut (Option.some.inj (hp.symm.trans hpc))

theorem exec_step {op : Op τ} (h : r.exec cfg fuel op = some r') :
    True ∧ (system cfg).step r op r' := ⟨trivial, fuel, h⟩

/-- A step that is taken only if it meets the condition. -/
def Run.execIf (ok : Run τ → Op τ → Prop) [∀ r op, Decidable (ok r op)] (cfg : Config) (fuel : ℕ)
    (r : Run τ) (op : Op τ) : Option (Run τ) :=
  if ok r op then r.exec cfg fuel op else none

theorem execIf_step {ok : Run τ → Op τ → Prop} [∀ r op, Decidable (ok r op)] {op : Op τ}
    (h : r.execIf ok cfg fuel op = some r') : ok r op ∧ (system cfg).step r op r' := by
  obtain ⟨hok, h⟩ := Option.ite_none_right_eq_some.1 h
  exact ⟨hok, (exec_step h).2⟩

end Flag

/-- A list of one row, as in `rtdef.h`, and a skip list of two rows. -/
def oneRow : Config := ⟨1, 3, by decide⟩
def twoRows : Config := ⟨2, 1, by decide⟩

/-- Timers that have just been initialised at the tick `n`: the number of a timer is its period,
    and the odd ones are periodic. -/
def board (n : ℕ) : Run (Fin 8) where
  os := { row _ := ⟨id, id⟩
          timer t := ⟨false, t % 2 = 1, false, t, 0⟩
          randomNr := 0
          tick := n % 2 ^ 32 }
  pc := none
  now := n
  starts := 0
  born _ := none
  deadline _ := 0
  fired := []
  stopped := []

theorem board_init (n : ℕ) : (board n).Init :=
  ⟨fun _ => ⟨fun _ => ⟨rfl, rfl⟩, fun _ => ⟨rfl, rfl⟩⟩, fun _ => rfl, rfl, rfl, rfl, fun _ => rfl,
    rfl, rfl⟩

/-- A function starts a third timer, another stops that and detaches its own. -/
def functionsRun : List (Op (Fin 8)) :=
  [.start 1, .start 2, .tick 1, .check, .start 4, .return, .tick 1, .check, .stop 4, .detach 2,
    .return]

end EasyCore.Timer
