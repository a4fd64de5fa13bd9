import EasyCore.Drivers.DataQueue

/-! The interrupts during the calls of a data queue (`components/drivers/src/dataqueue.c`). A call disables
    them, enables them while it waits, and has to enable them on its way out. A pop that has reached the
    low water mark has two ways out, and one of them does not:

        disable ──▶ the record ──▶ low water ──▶ a pusher waits ──▶ enable, rt_schedule ──▶ return
                         │              └──────▶ nobody waits ────────────────────────────▶ return
                         └──▶ __exit: enable ──▶ return -/

namespace EasyCore.DataQueue
open Function Kernel Runs Ipc

variable {ι τ : Type*}

/-- The state, and the interrupt state of the processor as the caller sees it. -/
structure Cpu (ι τ : Type*) where
  os : State τ
  level : ι

/-- `rt_hw_interrupt_disable`; `off` is the state in which interrupts are disabled. -/
def Cpu.disable (m : Cpu ι τ) (off : ι) : ι × Cpu ι τ := (m.level, { m with level := off })

/-- `rt_hw_interrupt_enable` -/
def Cpu.enable (m : Cpu ι τ) (level : ι) : Cpu ι τ := { m with level := level }

/-- `rt_schedule`: what the other threads do until the caller goes on. It is back at the interrupt state
    that it was called with. -/
def Cpu.schedule (m : Cpu ι τ) (others : State τ → State τ) : Cpu ι τ := { m with os := others m.os }

/-- `RT_DATAQUEUE_EVENT_PUSH`, `RT_DATAQUEUE_EVENT_POP`, `RT_DATAQUEUE_EVENT_LWM` -/
inductive DqEvent
  | push | pop | lwm
  deriving DecidableEq

/-- `evt_notify`, if it is set: a function of the client that keeps the interrupt state. -/
structure EvtNotify (ι τ : Type*) where
  call : DqEvent → Cpu ι τ → Cpu ι τ
  level : ∀ e m, (call e m).level = m.level

/-- What a call finds around it; `last` is what happens in the `rt_schedule` on the way out. -/
structure Around (ι τ : Type*) where
  off : ι
  evtNotify : Option (EvtNotify ι τ)
  last : State τ → State τ

def Around.notify (env : Around ι τ) (e : DqEvent) (m : Cpu ι τ) : Cpu ι τ :=
  match env.evtNotify with
  | some f => f.call e m
  | none => m

/-- `__exit` -/
def Around.exit (env : Around ι τ) (e : DqEvent) (level : ι) (result : ℤ) (m : Cpu ι τ) : Cpu ι τ :=
  let m := m.enable level
  if result = rtEok then env.notify e m else m

/-- The way out of a push that has stored its record; `s` is the state in which it did. -/
def Around.pushed (env : Around ι τ) (level : ι) (s : State τ) (m : Cpu ι τ) : Cpu ι τ :=
  if s.tasks.suspended .poppers ≠ [] then (m.enable level).schedule env.last
  else env.exit .push level rtEok m

/-- A pusher has noted that the queue was full, and the pop that comes next leaves `lwm` records. -/
def LowWater (s : State τ) : Prop :=
  s.dq.waitingLwm ∧ (s.dq.putIndex : ℤ) - ((s.dq.getIndex + 1) % 2 ^ 16 : ℕ) ≤ s.dq.lwm

instance (s : State τ) : Decidable (LowWater s) := inferInstanceAs (Decidable (_ ∧ _))

/-- The way out of a pop that has fetched its record; `s` is the state in which it did. -/
def Around.popped (env : Around ι τ) (level : ι) (s : State τ) (m : Cpu ι τ) : Cpu ι τ :=
  if LowWater s then
    let m := if s.tasks.suspended .pushers ≠ [] then (m.enable level).schedule env.last else m
    env.notify .lwm m
  else env.exit .pop level rtEok m

/-- The event of `__exit`. -/
def Call.event (call : Call) : DqEvent := if call.item.isSome then .push else .pop

/-- The way out of a call with the result `e`. -/
def Call.leave (call : Call) (env : Around ι τ) (level : ι) (s : State τ) (e : ℤ) (m : Cpu ι τ) :
    Cpu ι τ :=
  if e ≠ rtEok then env.exit call.event level e m
  else if call.item.isSome then env.pushed level s m
  else env.popped level s m

section Calls
variable [DecidableEq τ]

/-- The loop of `rt_data_queue_push` and `rt_data_queue_pop`, with interrupts disabled. The caller waits
    once for each of `others`, which tell what the other threads do meanwhile. -/
def Call.loop (call : Call) (env : Around ι τ) (c : Option τ) :
    List (State τ → State τ) → ι → Cpu ι τ → Option (Outcome × Cpu ι τ)
  | [], level, m =>
    match call.run c m.os with
    | some (.done e item, os) => some (.done e item, call.leave env level m.os e { m with os := os })
    | _ => none
  | others :: rest, level, m =>
    match c, call.run c m.os with
    | some thread, some (.waits, os) =>
      let m := (Cpu.enable { m with os := os } level).schedule others
      let result := m.os.tasks.error thread
      let (level, m) := m.disable env.off
      if result = rtEok then call.loop env c rest level m
      else if rest = [] then some (.done result none, call.leave env level m.os result m)
      else none
    | _, _ => none

/-- `rt_data_queue_push` or `rt_data_queue_pop`: what it returns, and how it leaves the processor. -/
def Call.exec (call : Call) (env : Around ι τ) (c : Option τ) (others : List (State τ → State τ))
    (m : Cpu ι τ) : Option (Outcome × Cpu ι τ) :=
  let (level, m) := m.disable env.off
  call.loop env c others level m

/-- The state in which the call goes on for the last time. -/
def Call.goesOn (call : Call) (c : Option τ) (others : List (State τ → State τ)) (s : State τ) : State τ :=
  others.foldl (fun s f => f (((call.run c s).map Prod.snd).getD s)) s

/-- A pop goes on, at last, without an error, and takes a record that leaves the low water mark, and no
    pusher waits. -/
structure Unwatched (call : Call) (c : Option τ) (others : List (State τ → State τ)) (s : State τ) :
    Prop where
  pop : call.item = none
  error : others ≠ [] → ∀ t ∈ c, (call.goesOn c others s).tasks.error t = rtEok
  record : (call.goesOn c others s).dq.getIndex ≠ (call.goesOn c others s).dq.putIndex
  low : LowWater (call.goesOn c others s)
  alone : (call.goesOn c others s).tasks.suspended .pushers = []

end Calls

/-! ### The ways out -/

section Leaves
variable {env : Around ι τ} {call : Call} {m : Cpu ι τ} {level : ι} {s : State τ}

@[simp] theorem notify_level (e : DqEvent) : (env.notify e m).level = m.level := by
  unfold Around.notify
  cases env.evtNotify with
  | none => rfl
  | some f => exact f.level e m

@[simp] theorem exit_level (e : DqEvent) (result : ℤ) : (env.exit e level result m).level = level := by
  unfold Around.exit
  dsimp only
  split_ifs
  · exact notify_level e
  · rfl

@[simp] theorem pushed_level : (env.pushed level s m).level = level := by
  unfold Around.pushed
  split_ifs
  · rfl
  · exact exit_level .push rtEok

/-- A pop at the low water mark enables the interrupts only for a pusher that waits. -/
theorem popped_level : (env.popped level s m).level
    = if LowWater s ∧ s.tasks.suspended .pushers = [] then m.level else level := by
  unfold Around.popped
  by_cases hlow : LowWater s
  · rw [if_pos hlow, notify_level]
    by_cases hnone : s.tasks.suspended .pushers = []
    · rw [if_neg (not_not.2 hnone), if_pos ⟨hlow, hnone⟩]
    · rw [if_pos hnone, if_neg fun h => hnone h.2]
      rfl
  · rw [if_neg hlow, if_neg fun h => hlow h.1]
    exact exit_level .pop rtEok

/-- Every way out but one is at the level that is passed to it. -/
theorem leave_level (e : ℤ) : (call.leave env level s e m).level
    = if e = rtEok ∧ call.item = none ∧ LowWater s ∧ s.tasks.suspended .pushers = [] then m.level
      else level := by
  unfold Call.leave
  by_cases he : e = rtEok
  · rw [if_neg (not_not.2 he)]
    cases hitem : call.item with
    | some item =>
      rw [if_pos (Option.isSome_some (a := item)), pushed_level,
        if_neg fun h => Option.some_ne_none item h.2.1]
    | none =>
      simp only [he, true_and]
      exact popped_level
  · rw [if_pos he, exit_level, if_neg fun h => he h.1]

end Leaves

/-! ### The loop -/

section Loop
variable [DecidableEq τ] {env : Around ι τ} {call : Call} {c : Option τ} {m : Cpu ι τ} {level : ι}
  {s os : State τ} {res : Outcome × Cpu ι τ} {e : ℤ} {item : Option RtDataItem}

theorem dqSleep_ne_done (side : Side) (timeout : ℤ) : dqSleep c side timeout s ≠ some (.done e item, os) := by
  cases c with
  | none => exact Option.some_ne_none _ |>.symm
  | some thread =>
    intro h
    cases h

/-- A pop succeeds exactly if there is a record. -/
theorem pop_done (hpop : call.item = none) (h : call.run c s = some (.done e item, os)) :
    e = rtEok ↔ s.dq.getIndex ≠ s.dq.putIndex := by
  rw [Call.run, hpop] at h
  dsimp only at h
  rw [rtDataQueuePop] at h
  split_ifs at h with hempty
  · obtain ⟨⟨rfl, -⟩, -⟩ : (-rtEtimeout = e ∧ none = item) ∧ s = os := by simpa using h
    exact iff_of_false (by decide) (not_not.2 hempty)
  · exact absurd h (dqSleep_ne_done .poppers call.timeout)
  · obtain ⟨⟨rfl, -⟩, -⟩ := (by simpa using h : (rtEok = e ∧ _ = item) ∧ _ = os)
    exact iff_of_true rfl hempty

/-- A call that does not wait again. -/
theorem loop_nil (h : call.loop env c [] level m = some res) : ∃ e item os,
    call.run c m.os = some (.done e item, os)
      ∧ res = (.done e item, call.leave env level m.os e { m with os := os }) := by
  rw [Call.loop] at h
  split at h
  next e item os hrun => exact ⟨e, item, os, hrun, (Option.some.inj h).symm⟩
  next => cases h

/-- A call that waits, and goes on or returns with an error. -/
theorem loop_cons {others : State τ → State τ} {rest : List (State τ → State τ)}
    (h : call.loop env c (others :: rest) level m = some res) : ∃ thread os,
    c = some thread ∧ call.run c m.os = some (.waits, os)
      ∧ (((others os).tasks.error thread = rtEok
          ∧ call.loop env c rest level ⟨others os, env.off⟩ = some res)
        ∨ ((others os).tasks.error thread ≠ rtEok ∧ rest = []
          ∧ res.2 = call.leave env level (others os) ((others os).tasks.error thread)
            ⟨others os, env.off⟩)) := by
  cases c with
  | none => simp [Call.loop] at h
  | some thread =>
    cases hrun : call.run (some thread) m.os with
    | none => simp [Call.loop, hrun] at h
    | some r =>
      obtain ⟨out, os⟩ := r
      cases out with
      | done e item => simp [Call.loop, hrun] at h
      | waits =>
        refine ⟨thread, os, rfl, rfl, ?_⟩
        simp only [Call.loop, hrun] at h
        replace h : (if (others os).tasks.error thread = rtEok then
            call.loop env (some thread) rest level ⟨others os, env.off⟩
          else if rest = [] then some (.done ((others os).tasks.error thread) none,
            call.leave env level (others os) ((others os).tasks.error thread) ⟨others os, env.off⟩)
          else none) = some res := h
        by_cases herr : (others os).tasks.error thread = rtEok
        · rw [if_pos herr] at h
          exact Or.inl ⟨herr, h⟩
        · rw [if_neg herr] at h
          obtain ⟨hrest, h⟩ := Option.ite_none_right_eq_some.1 h
          exact Or.inr ⟨herr, hrest, congrArg Prod.snd (Option.some.inj h).symm⟩

/-- What the last wait leaves is what the call goes on with. -/
theorem goesOn_cons {thread : τ} {others : State τ → State τ} (rest : List (State τ → State τ))
    (hrun : call.run (some thread) s = some (.waits, os)) :
    call.goesOn (some thread) (others :: rest) s = call.goesOn (some thread) rest (others os) := by
  rw [Call.goesOn, List.foldl_cons, hrun]
  rfl

theorem unwatched_cons {thread : τ} {others : State τ → State τ} {rest : List (State τ → State τ)}
    (hrun : call.run (some thread) s = some (.waits, os))
    (herr : (others os).tasks.error thread = rtEok) :
    Unwatched call (some thread) (others :: rest) s ↔ Unwatched call (some thread) rest (others os) := by
  have hgoes : call.goesOn (some thread) (others :: rest) s
      = call.goesOn (some thread) rest (others os) := goesOn_cons rest hrun
  constructor
  · rintro ⟨hpop, herror, hrecord, hlow, halone⟩
    rw [hgoes] at herror hrecord hlow halone
    exact ⟨hpop, fun _ => herror (List.cons_ne_nil _ _), hrecord, hlow, halone⟩
  · rintro ⟨hpop, herror, hrecord, hlow, halone⟩
    rw [← hgoes] at herror hrecord hlow halone
    refine ⟨hpop, fun _ => ?_, hrecord, hlow, halone⟩
    by_cases hrest : rest = []
    · rw [hgoes, hrest]
      rintro t ⟨⟩
      exact herr
    · exact herror hrest

theorem loop_level (others : List (State τ → State τ)) {m : Cpu ι τ} (hoff : m.level = env.off)
    (h : call.loop env c others level m = some res) :
    (Unwatched call c others m.os → res.2.level = env.off)
      ∧ (¬ Unwatched call c others m.os → res.2.level = level) := by
  induction others generalizing m with
  | nil =>
    obtain ⟨e, item, os, hrun, rfl⟩ := loop_nil h
    dsimp only
    rw [leave_level]
    constructor
    · intro hu
      rw [if_pos ⟨(pop_done hu.pop hrun).2 hu.record, hu.pop, hu.low, hu.alone⟩]
      exact hoff
    · intro hu
      rw [if_neg]
      rintro ⟨he, hpop, hlow, halone⟩
      exact hu ⟨hpop, fun hne => absurd rfl hne, (pop_done hpop hrun).1 he, hlow, halone⟩
  | cons others rest ih =>
    obtain ⟨thread, os, hc, hrun, ⟨herr, h⟩ | ⟨herr, hrest, hres⟩⟩ := loop_cons h
    · obtain ⟨hun, hwatched⟩ := ih rfl h
      rw [hc] at hrun hun hwatched ⊢
      rw [unwatched_cons hrun herr]
      exact ⟨hun, hwatched⟩
    · rw [hc] at hrun ⊢
      subst hrest
      constructor
      · intro hu
        have herror := hu.error (List.cons_ne_nil _ _) thread rfl
        rw [goesOn_cons [] hrun] at herror
        exact absurd herror herr
      · intro _
        rw [hres, leave_level, if_neg fun hl => herr hl.1]

/-- CORRECT: a push or a pop returns with the interrupt state that it was entered with, exactly if that
    has interrupts disabled or no pop leaves the low water mark with no pusher waiting. -/
theorem exec_level_iff {others : List (State τ → State τ)} (h : call.exec env c others m = some res) :
    res.2.level = m.level ↔ m.level = env.off ∨ ¬ Unwatched call c others m.os := by
  obtain ⟨hun, hwatched⟩ := loop_level others rfl h
  by_cases hu : Unwatched call c others m.os
  · rw [hun hu]
    exact ⟨fun heq => Or.inl heq.symm, fun hor => (hor.resolve_right (not_not.2 hu)).symm⟩
  · exact iff_of_true (hwatched hu) (Or.inr hu)

end Loop

/-- Interrupts on or off, and nobody to notify. -/
def quiet : Around Bool ℕ := ⟨false, none, id⟩

/-- Two pushes fill a queue for two records, and a third one does not wait. -/
def noted : State ℕ :=
  ([.call (some 0) ⟨some ⟨7, 1⟩, 0⟩, .call (some 0) ⟨some ⟨8, 2⟩, 0⟩,
    .call (some 0) ⟨some ⟨9, 3⟩, 0⟩].foldl (dqStep (2 ^ 1)) (start 1, [])).1.os

/-- A push waits until a pop by an interrupt handler has made room. -/
theorem exec_level_iff_waits : ∃ res,
    Call.exec ⟨some ⟨9, 3⟩, -1⟩ quiet (some 1) [fun s => (dqFetch s).2] ⟨noted, true⟩ = some res
      ∧ res.2.level = true := by
  have h : Call.exec ⟨some ⟨9, 3⟩, -1⟩ quiet (some 1) [fun s => (dqFetch s).2] ⟨noted, true⟩
      = some _ := rfl
  exact ⟨_, h, (exec_level_iff h).2 (Or.inr fun hu => by cases hu.pop)⟩

/-- INCORRECT at the low water mark: the next pop finds the mark noted and no pusher, and returns with
    the interrupts disabled. -/
theorem exec_level_lost : ∃ res,
    Call.exec ⟨none, 0⟩ quiet (some 0) [] ⟨noted, true⟩ = some res ∧ res.2.level ≠ true :=
  ⟨_, rfl, by decide⟩

end EasyCore.DataQueue
