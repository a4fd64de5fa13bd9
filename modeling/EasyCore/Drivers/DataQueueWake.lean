import EasyCore.Drivers.DataQueue

/-! Who wakes a pusher of a data queue (`components/drivers/src/dataqueue.c`). A push that finds the queue
    full notes it in `waiting_lwm`; the pop that reaches the low water mark clears the note and wakes one
    pusher, the first.

        full, two wait      pop                    the first stores     pop
        waiting_lwm    ──▶  at the mark: clear, ──▶ full again,     ──▶ at the mark, not noted:
                            the first is woken      not noted           the second is left behind

    A pusher is left behind if nobody who has been woken is yet to go on. -/

namespace EasyCore.DataQueue
open Function Kernel Runs Ipc Links

variable {τ : Type*}

/-- The number of records. -/
def RtDataQueue.count (dq : RtDataQueue) : ℕ := (dq.putIndex + 2 ^ 16 - dq.getIndex) % 2 ^ 16

/-- The thread has been woken and is yet to go on with its call. -/
def Run.Pending (r : Run τ) (t : τ) : Prop := (r.pc t).isSome ∧ r.os.tasks.stat t = .ready

/-- A pusher is left behind: nobody is yet to go on, and at most `lwm` records are in the queue. -/
structure Run.Stranded (r : Run τ) : Prop where
  idle : ∀ t, ¬ r.Pending t
  low : r.os.dq.items.length ≤ r.os.dq.lwm
  waits : r.os.tasks.suspended .pushers ≠ []

/-- Nobody but the caller is yet to go on. -/
def Run.Last (r : Run τ) (c : Option τ) : Prop := ∀ t, r.Pending t → c = some t

/-- A call in this state wakes nobody, and leaves at most `lwm` records and a pusher that waits: itself in
    a queue that is not larger; or it stores a record; or it finds none; or it takes one while
    `waiting_lwm` is clear. -/
def Call.Forgets (call : Call) (c : Option τ) (s : State τ) : Prop :=
  match call.item with
  | some _ =>
    if (s.dq.putIndex : ℤ) - s.dq.getIndex = s.dq.size then
      s.dq.size ≤ s.dq.lwm ∧ (s.tasks.suspended .pushers ≠ [] ∨ call.timeout ≠ 0 ∧ c.isSome)
    else (s.dq.count + 1) % 2 ^ 16 ≤ s.dq.lwm ∧ s.tasks.suspended .poppers = [] ∧
      s.tasks.suspended .pushers ≠ []
  | none =>
    if s.dq.getIndex = s.dq.putIndex then s.tasks.suspended .pushers ≠ []
    else s.dq.waitingLwm = false ∧ s.dq.count - 1 ≤ s.dq.lwm ∧ s.tasks.suspended .pushers ≠ []

section Steps
variable [DecidableEq τ]

/-- The last one to go on forgets a pusher. -/
def Run.Forgets (r : Run τ) : Op τ → Prop
  | .call c call => r.os.tasks.Free r.pc c ∧ r.Last c ∧ call.Forgets c r.os
  | .goOn t => ∃ call ∈ r.pc t, r.os.tasks.stat t = .ready ∧ r.Last (some t) ∧
    if r.os.tasks.error t ≠ rtEok then
      r.os.dq.count ≤ r.os.dq.lwm ∧ r.os.tasks.suspended .pushers ≠ []
    else call.Forgets (some t) r.os
  | .expire _ => False

/-- The run after a step; what cannot happen changes nothing. -/
def Run.next (r : Run τ) (op : Op τ) : Run τ := ((r.exec op).map Prod.snd).getD r

/-- The suspend list of a call. -/
def Call.side (call : Call) : Side := if call.item.isSome then .pushers else .poppers

/-- The threads on the suspend lists wait in their calls, and the indices are 16 bits wide. -/
structure Run.Ok (r : Run τ) : Prop where
  waiting : Waiting r.os.tasks fun t => (r.pc t).map Call.side
  get : r.os.dq.getIndex < 2 ^ 16
  put : r.os.dq.putIndex < 2 ^ 16

variable {r r' : Run τ} {c : Option τ} {call : Call} {s : State τ} {t : τ} {dq : RtDataQueue}

/-! ### The number of records -/

omit [DecidableEq τ] in
theorem items_length (dq : RtDataQueue) : dq.items.length = dq.count := by
  rw [RtDataQueue.items, Ring.length_items, RtDataQueue.count]

omit [DecidableEq τ] in
theorem count_full (hput : dq.putIndex < 2 ^ 16) (h : (dq.putIndex : ℤ) - dq.getIndex = dq.size) :
    dq.count = dq.size := by
  unfold RtDataQueue.count
  omega

omit [DecidableEq τ] in
theorem count_empty (h : dq.getIndex = dq.putIndex) : dq.count = 0 := by
  unfold RtDataQueue.count
  omega

omit [DecidableEq τ] in
theorem count_store (hget : dq.getIndex < 2 ^ 16) :
    ((dq.putIndex + 1) % 2 ^ 16 + 2 ^ 16 - dq.getIndex) % 2 ^ 16 = (dq.count + 1) % 2 ^ 16 := by
  unfold RtDataQueue.count
  omega

omit [DecidableEq τ] in
theorem count_fetch (hget : dq.getIndex < 2 ^ 16) (hput : dq.putIndex < 2 ^ 16)
    (h : dq.getIndex ≠ dq.putIndex) :
    (dq.putIndex + 2 ^ 16 - (dq.getIndex + 1) % 2 ^ 16) % 2 ^ 16 = dq.count - 1 := by
  unfold RtDataQueue.count
  omega

/-- At the mark the difference that a pop computes is at most `lwm`. -/
theorem low_of_count {a b lwm : ℕ} (ha : a < 2 ^ 16) (hb : b < 2 ^ 16)
    (h : (a + 2 ^ 16 - b) % 2 ^ 16 ≤ lwm) : (a : ℤ) - b ≤ lwm := by
  omega

/-! ### What a caller leaves behind -/

/-- The others stay as they are, and the caller does not go on: nobody is left to go on exactly if the
    caller was the last. -/
theorem idle_iff (hothers : ∀ t, c ≠ some t → r'.pc t = r.pc t ∧ r'.os.tasks.stat t = r.os.tasks.stat t)
    (hcaller : ∀ t ∈ c, ¬ r'.Pending t) : (∀ t, ¬ r'.Pending t) ↔ r.Last c := by
  constructor
  · intro h t ht
    by_contra hne
    obtain ⟨hpc, hstat⟩ := hothers t hne
    refine h t ⟨?_, ?_⟩
    · rw [hpc]
      exact ht.1
    · rw [hstat]
      exact ht.2
  · intro h t ht
    by_cases hc : c = some t
    · exact hcaller t hc ht
    · obtain ⟨hpc, hstat⟩ := hothers t hc
      refine hc (h t ⟨?_, ?_⟩)
      · rw [← hpc]
        exact ht.1
      · rw [← hstat]
        exact ht.2

/-- The caller returns. -/
def Run.leave (r : Run τ) (c : Option τ) : τ → Option Call := c.elim r.pc fun t => update r.pc t none

theorem leave_of_ne (h : c ≠ some t) : r.leave c t = r.pc t := by
  cases c with
  | none => rfl
  | some u => exact update_of_ne (fun e => h (congrArg some e.symm)) _ _

theorem leave_self : r.leave (some t) t = none := update_self _ _ _

/-- A caller that returns, and has woken nobody. -/
theorem stranded_leave (dq : RtDataQueue) :
    Run.Stranded ⟨⟨r.os.tasks, dq⟩, r.leave c⟩ ↔
      r.Last c ∧ dq.count ≤ dq.lwm ∧ r.os.tasks.suspended .pushers ≠ [] := by
  have hidle : (∀ t, ¬ Run.Pending ⟨⟨r.os.tasks, dq⟩, r.leave c⟩ t) ↔ r.Last c := by
    refine idle_iff (fun t ht => ⟨leave_of_ne ht, rfl⟩) fun t ht hpend => ?_
    obtain rfl : c = some t := ht
    have hsome : (r.leave (some t) t).isSome := hpend.1
    rw [leave_self] at hsome
    exact absurd hsome (by decide)
  constructor
  · intro h
    exact ⟨hidle.1 h.idle, items_length dq ▸ h.low, h.waits⟩
  · rintro ⟨hlast, hlow, hwaits⟩
    exact ⟨hidle.2 hlast, (items_length dq).symm ▸ hlow, hwaits⟩

/-- A caller that returns, and has woken the first of a list. -/
theorem stranded_wake (hok : r.Ok) (hc : ∀ t ∈ c, r.os.tasks.stat t = .ready) (side : Side)
    (dq : RtDataQueue) :
    Run.Stranded ⟨⟨r.os.tasks.ipcWake side, dq⟩, r.leave c⟩ ↔
      r.Last c ∧ dq.count ≤ dq.lwm ∧ r.os.tasks.suspended side = [] ∧
        r.os.tasks.suspended .pushers ≠ [] := by
  unfold Tasks.ipcWake Tasks.ipcResume
  cases hl : r.os.tasks.suspended side with
  | nil =>
    simp only [List.head?_nil, Option.map_none, Option.getD_none, true_and]
    exact stranded_leave dq
  | cons t l =>
    simp only [List.head?_cons, Option.map_some, Option.getD_some, reduceCtorEq, false_and, and_false,
      iff_false]
    intro h
    obtain ⟨hpc, hsusp⟩ := hok.waiting.mem (hl ▸ List.mem_cons_self : t ∈ r.os.tasks.suspended side)
    have hne : c ≠ some t := fun e => absurd ((hc t e).symm.trans hsusp) (by decide)
    refine h.idle t ⟨?_, ?_⟩
    · have hleave : r.leave c t = r.pc t := leave_of_ne hne
      obtain ⟨call, hcall, -⟩ := Option.map_eq_some_iff.1 hpc
      exact Option.isSome_iff_exists.2 ⟨call, hleave.trans hcall⟩
    · exact (congrFun (resume_fields hsusp).2.1 t).trans (update_self _ _ _)

/-- The tasks after the caller has gone to sleep. -/
theorem asleep_fields (hr : s.tasks.stat t = .ready) (side : Side) (timeout : ℤ) :
    (((s.tasks.setError t rtEok).sleep t side .fifo timeout).suspended =
      update s.tasks.suspended side (s.tasks.suspended side ++ [t])) ∧
    ((s.tasks.setError t rtEok).sleep t side .fifo timeout).stat =
      update s.tasks.stat t .suspend := by
  obtain ⟨hsusp, hstat, -⟩ := setError_fields (s := s.tasks) (t := t) rtEok
  obtain ⟨hs, ht, -⟩ := sleep_fields (s := s.tasks.setError t rtEok) (k := side)
    ((congrFun hstat t).trans hr) .fifo timeout
  rw [hsusp] at hs
  rw [hstat] at ht
  exact ⟨hs, ht⟩

/-- A caller that goes to sleep. -/
theorem stranded_sleep (hr : r.os.tasks.stat t = .ready) (side : Side) (timeout : ℤ) (dq : RtDataQueue) :
    Run.Stranded ⟨⟨(r.os.tasks.setError t rtEok).sleep t side .fifo timeout, dq⟩,
        update r.pc t (some call)⟩ ↔
      r.Last (some t) ∧ dq.count ≤ dq.lwm ∧
        (side = .pushers ∨ r.os.tasks.suspended .pushers ≠ []) := by
  obtain ⟨hs, ht⟩ := asleep_fields (s := r.os) hr side timeout
  have hidle : (∀ u, ¬ Run.Pending ⟨⟨(r.os.tasks.setError t rtEok).sleep t side .fifo timeout, dq⟩,
      update r.pc t (some call)⟩ u) ↔ r.Last (some t) := by
    refine idle_iff (fun u hu => ?_) fun u hu hpend => ?_
    · have hne : u ≠ t := fun e => hu (congrArg some e.symm)
      exact ⟨update_of_ne hne _ _, (congrFun ht u).trans (update_of_ne hne _ _)⟩
    · obtain rfl := Option.some.inj hu
      have hready := hpend.2
      rw [show Tasks.stat _ t = _ from (congrFun ht t).trans (update_self _ _ _)] at hready
      exact absurd hready (by decide)
  have hwaits : ((r.os.tasks.setError t rtEok).sleep t side .fifo timeout).suspended .pushers ≠ [] ↔
      (side = .pushers ∨ r.os.tasks.suspended .pushers ≠ []) := by
    rw [hs]
    cases side with
    | pushers => simp
    | poppers => simp
  constructor
  · intro h
    exact ⟨hidle.1 h.idle, items_length dq ▸ h.low, hwaits.1 h.waits⟩
  · rintro ⟨hlast, hlow, hw⟩
    exact ⟨hidle.2 hlast, (items_length dq).symm ▸ hlow, hwaits.2 hw⟩

/-! ### One step -/

variable {item : RtDataItem} {timeout : ℤ} {res : Outcome × State τ} {op : Op τ}

theorem dqSleep_stranded (hc : ∀ t ∈ c, r.os.tasks.stat t = .ready) {side : Side} {dq : RtDataQueue}
    (hrun : dqSleep c side timeout ⟨r.os.tasks, dq⟩ = some res) :
    (r.after c call res).2.Stranded ↔
      r.Last c ∧ dq.count ≤ dq.lwm ∧ (side = .pushers ∨ r.os.tasks.suspended .pushers ≠ []) := by
  cases c with
  | none => exact absurd hrun (by rw [dqSleep, Option.map_none]; exact (Option.some_ne_none _).symm)
  | some t =>
    obtain rfl := Option.some.inj hrun
    exact stranded_sleep (hc t rfl) side timeout dq

theorem dqSleep_isSome (hrun : dqSleep c side timeout s = some res) : c.isSome := by
  cases c with
  | none => exact absurd hrun (by rw [dqSleep, Option.map_none]; exact (Option.some_ne_none _).symm)
  | some t => rfl

theorem push_stranded (hok : r.Ok) (hc : ∀ t ∈ c, r.os.tasks.stat t = .ready)
    (hrun : rtDataQueuePush c item timeout r.os = some res) :
    (r.after c ⟨some item, timeout⟩ res).2.Stranded ↔
      r.Last c ∧ Call.Forgets ⟨some item, timeout⟩ c r.os := by
  unfold Call.Forgets
  unfold rtDataQueuePush at hrun
  dsimp only at hrun ⊢
  by_cases hfull : (r.os.dq.putIndex : ℤ) - r.os.dq.getIndex = r.os.dq.size
  · have hcount : RtDataQueue.count { r.os.dq with waitingLwm := true } = r.os.dq.size :=
      count_full hok.put hfull
    rw [if_pos hfull] at hrun ⊢
    by_cases htime : timeout = 0
    · rw [if_pos htime] at hrun
      obtain rfl := Option.some.inj hrun
      refine (stranded_leave _).trans ?_
      rw [hcount]
      simp only [htime, ne_eq, not_true_eq_false, false_and, or_false]
    · rw [if_neg htime] at hrun
      refine (dqSleep_stranded hc hrun).trans ?_
      rw [hcount]
      simp only [htime, dqSleep_isSome hrun, ne_eq, not_false_eq_true, true_or, or_true, and_self]
  · rw [if_neg hfull] at hrun ⊢
    obtain rfl := Option.some.inj hrun
    refine (stranded_wake hok hc .poppers _).trans ?_
    rw [RtDataQueue.count]
    dsimp only
    rw [count_store hok.get]

theorem pop_stranded (hok : r.Ok) (hc : ∀ t ∈ c, r.os.tasks.stat t = .ready)
    (hrun : rtDataQueuePop c timeout r.os = some res) :
    (r.after c ⟨none, timeout⟩ res).2.Stranded ↔ r.Last c ∧ Call.Forgets ⟨none, timeout⟩ c r.os := by
  unfold Call.Forgets
  unfold rtDataQueuePop at hrun
  dsimp only
  by_cases hempty : r.os.dq.getIndex = r.os.dq.putIndex
  · have hcount := count_empty hempty
    rw [if_pos hempty] at hrun ⊢
    by_cases htime : timeout = 0
    · rw [if_pos htime] at hrun
      obtain rfl := Option.some.inj hrun
      refine (stranded_leave _).trans ?_
      simp only [hcount, Nat.zero_le, true_and]
    · rw [if_neg htime] at hrun
      refine (dqSleep_stranded hc hrun).trans ?_
      simp only [hcount, Nat.zero_le, true_and, reduceCtorEq, false_or]
  · rw [if_neg hempty] at hrun ⊢
    obtain rfl := Option.some.inj hrun
    have hcount := count_fetch hok.get hok.put hempty
    unfold dqFetch
    dsimp only
    by_cases hlow : r.os.dq.waitingLwm = true ∧
        (r.os.dq.putIndex : ℤ) - ((r.os.dq.getIndex + 1) % 2 ^ 16 : ℕ) ≤ r.os.dq.lwm
    · -- a pusher is woken, if there is one
      rw [if_pos hlow]
      refine (stranded_wake hok hc .pushers _).trans ?_
      rw [hlow.1]
      constructor
      · rintro ⟨-, -, hnone, hsome⟩
        exact absurd hnone hsome
      · rintro ⟨-, hclear, -⟩
        exact absurd hclear (by decide)
    · rw [if_neg hlow]
      refine (stranded_leave _).trans ?_
      rw [RtDataQueue.count]
      dsimp only
      rw [hcount]
      constructor
      · rintro ⟨hlast, hle, hwaits⟩
        refine ⟨hlast, ?_, hle, hwaits⟩
        by_contra hset
        refine hlow ⟨(Bool.not_eq_false _).mp hset, ?_⟩
        exact low_of_count hok.put (Nat.mod_lt _ (by decide)) (hcount.symm ▸ hle)
      · rintro ⟨hlast, -, hle, hwaits⟩
        exact ⟨hlast, hle, hwaits⟩

/-- A call that gets on leaves a pusher behind exactly if its caller is the last and forgets one. -/
theorem run_stranded (hok : r.Ok) (hc : ∀ t ∈ c, r.os.tasks.stat t = .ready)
    (hrun : call.run c r.os = some res) :
    (r.after c call res).2.Stranded ↔ r.Last c ∧ call.Forgets c r.os := by
  obtain ⟨item, timeout⟩ := call
  cases item with
  | some item => exact push_stranded hok hc hrun
  | none => exact pop_stranded hok hc hrun

omit [DecidableEq τ] in
theorem Run.Last.idle (h : r.Last none) : ∀ t, ¬ r.Pending t := fun t ht => nomatch h t ht

/-- Only an interrupt handler cannot go on with a call: it would wait. -/
theorem run_none (hok : r.Ok) (hrun : call.run c r.os = none) (hlast : r.Last c)
    (hforgets : call.Forgets c r.os) : r.Stranded := by
  have hsleep : ∀ {side timeout s}, dqSleep c side timeout s = none → c = none := fun h =>
    Option.map_eq_none_iff.1 h
  obtain ⟨item, timeout⟩ := call
  unfold Call.run at hrun
  unfold Call.Forgets at hforgets
  cases item with
  | some item =>
    dsimp only at hrun hforgets
    rw [rtDataQueuePush] at hrun
    split at hrun
    next hfull =>
      rw [if_pos hfull] at hforgets
      obtain ⟨hle, hwaits⟩ := hforgets
      split_ifs at hrun
      obtain rfl := hsleep hrun
      refine ⟨hlast.idle, ?_, hwaits.resolve_right fun h => Bool.false_ne_true h.2⟩
      rw [items_length, count_full hok.put hfull]
      exact hle
    next => cases hrun
  | none =>
    dsimp only at hrun hforgets
    rw [rtDataQueuePop] at hrun
    split at hrun
    next hempty =>
      rw [if_pos hempty] at hforgets
      split_ifs at hrun
      obtain rfl := hsleep hrun
      refine ⟨hlast.idle, ?_, hforgets⟩
      rw [items_length, count_empty hempty]
      exact Nat.zero_le _
    next => cases hrun

/-- The timer of a thread leaves nobody behind. -/
theorem expire_stranded (hok : r.Ok) (hns : ¬ r.Stranded) {tasks : Tasks Side τ}
    (h : r.os.tasks.expire t = some tasks) :
    ¬ Run.Stranded { r with os := { r.os with tasks := tasks } } := by
  obtain ⟨-, hs, hstat, -⟩ := expire_fields h
  intro hstr
  cases hpc : r.pc t with
  | some call =>
    refine hstr.idle t ⟨?_, (congrFun hstat t).trans (update_self _ _ _)⟩
    exact Option.isSome_iff_exists.2 ⟨call, hpc⟩
  | none =>
    refine hns ⟨fun u hu => ?_, hstr.low, ?_⟩
    · have hne : u ≠ t := by
        rintro rfl
        exact absurd (hpc ▸ hu.1) (by decide)
      exact hstr.idle u ⟨hu.1, (congrFun hstat u).trans ((update_of_ne hne _ _).trans hu.2)⟩
    · have hnot : t ∉ r.os.tasks.suspended .pushers := fun ht => by
        obtain ⟨hcall, -⟩ := hok.waiting.mem ht
        rw [hpc] at hcall
        cases hcall
      have hwaits := hstr.waits
      dsimp only at hwaits
      rw [hs, without_eq hnot] at hwaits
      exact hwaits

/-- One step leaves a pusher behind exactly if it forgets one. -/
theorem next_stranded (hok : r.Ok) (hns : ¬ r.Stranded) (op : Op τ) :
    (r.next op).Stranded ↔ r.Forgets op := by
  unfold Run.next
  cases op with
  | call c call =>
    by_cases hfree : r.os.tasks.Free r.pc c
    · have hc : ∀ t ∈ c, r.os.tasks.stat t = .ready := by
        rintro t rfl
        exact hfree.2
      rw [Run.exec, if_pos hfree]
      cases hrun : call.run c r.os with
      | none => exact ⟨fun h => absurd h hns, fun h => absurd (run_none hok hrun h.2.1 h.2.2) hns⟩
      | some res =>
        refine (run_stranded hok hc hrun).trans ?_
        exact ⟨fun h => ⟨hfree, h.1, h.2⟩, fun h => ⟨h.2.1, h.2.2⟩⟩
    · rw [Run.exec, if_neg hfree]
      exact ⟨fun h => absurd h hns, fun h => absurd h.1 hfree⟩
  | goOn t =>
    cases hpc : r.pc t with
    | none =>
      rw [Run.exec, hpc]
      refine ⟨fun h => absurd h hns, ?_⟩
      rintro ⟨call, hcall, -⟩
      rw [hpc] at hcall
      cases hcall
    | some call =>
      rw [Run.exec, hpc, Option.bind_some]
      by_cases hready : r.os.tasks.stat t = .ready
      · rw [if_pos hready]
        have hiff : r.Forgets (.goOn t) ↔ r.Last (some t) ∧
            if r.os.tasks.error t ≠ rtEok then
              r.os.dq.count ≤ r.os.dq.lwm ∧ r.os.tasks.suspended .pushers ≠ []
            else call.Forgets (some t) r.os := by
          constructor
          · rintro ⟨call', hcall', -, h⟩
            obtain rfl : call = call' := Option.some.inj (hpc.symm.trans hcall')
            exact h
          · intro h
            exact ⟨call, hpc, hready, h⟩
        rw [hiff]
        by_cases herr : r.os.tasks.error t = rtEok
        · rw [if_neg (not_not.2 herr), if_neg (not_not.2 herr)]
          cases hrun : call.run (some t) r.os with
          | none => exact ⟨fun h => absurd h hns, fun h => absurd (run_none hok hrun h.1 h.2) hns⟩
          | some res =>
            refine run_stranded hok ?_ hrun
            rintro u ⟨⟩
            exact hready
        · rw [if_pos herr, if_pos herr]
          exact stranded_leave (c := some t) r.os.dq
      · rw [if_neg hready]
        refine ⟨fun h => absurd h hns, ?_⟩
        rintro ⟨call', -, h, -⟩
        exact absurd h hready
  | expire t =>
    rw [Run.exec]
    cases hexp : r.os.tasks.expire t with
    | none => exact ⟨fun h => absurd h hns, fun h => h.elim⟩
    | some tasks => exact ⟨fun h => expire_stranded hok hns hexp h, fun h => h.elim⟩

/-! ### Runs -/

theorem leave_waiting (w : Waiting r.os.tasks fun t => (r.pc t).map Call.side)
    (hc : ∀ t ∈ c, r.os.tasks.stat t = .ready) :
    Waiting r.os.tasks fun t => (r.leave c t).map Call.side := by
  cases c with
  | none => exact w
  | some t =>
    have hpc : (fun u => (r.leave (some t) u).map Call.side) =
        update (fun u => (r.pc u).map Call.side) t none := by
      funext u
      by_cases hu : u = t
      · rw [hu, leave_self, update_self]
        rfl
      · rw [leave_of_ne fun e => hu (Option.some.inj e).symm, update_of_ne hu]
    rw [hpc]
    exact w.leave (hc t rfl)

theorem wake_waiting {pc : τ → Option Side} {tasks : Tasks Side τ} (w : Waiting tasks pc) (side : Side) :
    Waiting (tasks.ipcWake side) pc := by
  unfold Tasks.ipcWake Tasks.ipcResume
  cases hl : tasks.suspended side with
  | nil => exact w
  | cons t l => exact w.resume (hl ▸ List.mem_cons_self : t ∈ tasks.suspended side)

theorem sleep_waiting (w : Waiting r.os.tasks fun t => (r.pc t).map Call.side)
    (hc : ∀ t ∈ c, r.os.tasks.stat t = .ready)
    (hrun : dqSleep c call.side timeout ⟨r.os.tasks, dq⟩ = some res) :
    Waiting (r.after c call res).2.os.tasks fun t => ((r.after c call res).2.pc t).map Call.side := by
  cases c with
  | none => exact absurd hrun (by rw [dqSleep, Option.map_none]; exact (Option.some_ne_none _).symm)
  | some t =>
    obtain rfl := Option.some.inj hrun
    obtain ⟨hsusp, hstat, -⟩ := setError_fields (s := r.os.tasks) (t := t) rtEok
    have hsleep := (w.congr hsusp hstat).sleep (k := call.side) ((congrFun hstat t).trans (hc t rfl))
      .fifo timeout
    have hpc : (fun u => (update r.pc t (some call) u).map Call.side) =
        update (fun u => (r.pc u).map Call.side) t (some call.side) := by
      funext u
      by_cases hu : u = t
      · rw [hu, update_self, update_self]
        rfl
      · rw [update_of_ne hu, update_of_ne hu]
    rw [← hpc] at hsleep
    exact hsleep

/-- A call keeps the invariant. -/
theorem run_ok (hok : r.Ok) (hc : ∀ t ∈ c, r.os.tasks.stat t = .ready)
    (hrun : call.run c r.os = some res) : (r.after c call res).2.Ok := by
  obtain ⟨w, hget, hput⟩ := hok
  have hmod : ∀ n, n % 2 ^ 16 < 2 ^ 16 := fun n => Nat.mod_lt n (by decide)
  have hleave := leave_waiting w hc
  obtain ⟨item, timeout⟩ := call
  cases item with
  | some item =>
    replace hrun : rtDataQueuePush c item timeout r.os = some res := hrun
    rw [rtDataQueuePush] at hrun
    split_ifs at hrun
    · obtain rfl := Option.some.inj hrun
      exact ⟨hleave, hget, hput⟩
    · have hkeep : res.2.dq = { r.os.dq with waitingLwm := true } := by
        obtain ⟨t, -, rfl⟩ := Option.map_eq_some_iff.1 hrun
        rfl
      refine ⟨sleep_waiting w hc hrun, ?_, ?_⟩
      · rw [after_os, hkeep]
        exact hget
      · rw [after_os, hkeep]
        exact hput
    · obtain rfl := Option.some.inj hrun
      exact ⟨wake_waiting hleave .poppers, hget, hmod _⟩
  | none =>
    replace hrun : rtDataQueuePop c timeout r.os = some res := hrun
    rw [rtDataQueuePop] at hrun
    split_ifs at hrun
    · obtain rfl := Option.some.inj hrun
      exact ⟨hleave, hget, hput⟩
    · have hkeep : res.2.dq = r.os.dq := by
        obtain ⟨t, -, rfl⟩ := Option.map_eq_some_iff.1 hrun
        rfl
      refine ⟨sleep_waiting w hc hrun, ?_, ?_⟩
      · rw [after_os, hkeep]
        exact hget
      · rw [after_os, hkeep]
        exact hput
    · obtain rfl := Option.some.inj hrun
      unfold dqFetch
      dsimp only
      split_ifs
      · exact ⟨wake_waiting hleave .pushers, hmod _, hput⟩
      · exact ⟨hleave, hmod _, hput⟩

theorem next_ok (hok : r.Ok) (op : Op τ) : (r.next op).Ok := by
  unfold Run.next
  cases op with
  | call c call =>
    rw [Run.exec]
    split_ifs with hfree
    · cases hrun : call.run c r.os with
      | none => exact hok
      | some res =>
        refine run_ok hok ?_ hrun
        rintro t rfl
        exact hfree.2
    · exact hok
  | goOn t =>
    rw [Run.exec]
    cases r.pc t with
    | none => exact hok
    | some call =>
      rw [Option.bind_some]
      split_ifs with hready herr
      · refine ⟨leave_waiting hok.waiting (c := some t) ?_, hok.get, hok.put⟩
        rintro u ⟨⟩
        exact hready
      · cases hrun : call.run (some t) r.os with
        | none => exact hok
        | some res =>
          refine run_ok hok ?_ hrun
          rintro u ⟨⟩
          exact hready
      · exact hok
  | expire t =>
    rw [Run.exec]
    cases hexp : r.os.tasks.expire t with
    | none => exact hok
    | some tasks => exact ⟨hok.waiting.expire hexp, hok.get, hok.put⟩

omit [DecidableEq τ] in
theorem Run.Init.ok {size : ℕ} (hr : r.Init size) : r.Ok := by
  obtain ⟨queue, lwm, hdq⟩ := hr.dq
  refine ⟨Waiting.empty hr.suspended fun t => ?_, ?_, ?_⟩
  · rw [hr.pc]
    rfl
  · rw [hdq]
    exact Nat.two_pow_pos 16
  · rw [hdq]
    exact Nat.two_pow_pos 16

/-- CORRECT: in a run of any threads on a data queue no pusher is ever left behind, exactly if no step
    forgets one. -/
theorem no_stranded_pusher_iff {size : ℕ} (hr : r.Init size) (ops : List (Op τ)) :
    Along Run.next (fun r op => ¬ (r.next op).Stranded) r ops ↔
      Along Run.next (fun r op => ¬ r.Forgets op) r ops := by
  refine Along.iff (I := fun r => r.Ok ∧ ¬ r.Stranded) (fun r op h => ?_) (fun r op h hop => ?_) ops
    ⟨hr.ok, fun h => h.waits (hr.suspended _)⟩
  · exact not_congr (next_stranded h.1 h.2 op)
  · exact ⟨next_ok h.1 op, fun h' => hop ((next_stranded h.1 h.2 op).1 h')⟩

end Steps

/-! ### A pusher that is left behind -/

/-- Three threads that are ready, and a data queue for two records with the mark at one. -/
def three : Run (Fin 3) where
  os := { tasks := ⟨fun t => ⟨.ready, t, t, 0, 0, 0, 0, false, false, true⟩, fun _ => []⟩
          dq := rtDataQueueInit (fun _ => ⟨0, 0⟩) 2 1 }
  pc _ := none

theorem three_init : three.Init 2 := ⟨⟨_, _, rfl⟩, fun _ => rfl, fun _ => rfl⟩

instance (r : Run (Fin 3)) : DecidablePred r.Pending := fun _ => inferInstanceAs (Decidable (_ ∧ _))

instance (r : Run (Fin 3)) (c : Option (Fin 3)) : Decidable (r.Last c) :=
  inferInstanceAs (Decidable (∀ t, _ → _))

instance (call : Call) (c : Option (Fin 3)) (s : State (Fin 3)) : Decidable (call.Forgets c s) := by
  unfold Call.Forgets
  cases call.item <;> infer_instance

instance (r : Run (Fin 3)) (op : Op (Fin 3)) : Decidable (r.Forgets op) := by
  cases op <;> unfold Run.Forgets <;> infer_instance

/-- A pusher waits, and the next pop wakes it. -/
theorem no_stranded_pusher_iff_one : Along Run.next (fun r op => ¬ (r.next op).Stranded) three
    [.call (some 0) ⟨some ⟨7, 1⟩, 0⟩, .call (some 0) ⟨some ⟨8, 1⟩, 0⟩,
      .call (some 1) ⟨some ⟨9, 1⟩, -1⟩, .call (some 0) ⟨none, 0⟩, .goOn 1] :=
  (no_stranded_pusher_iff three_init _).2 (by decide +kernel)

/-- INCORRECT: a thread fills the queue, and two wait. Each pop has taken it to the mark, and the second
    pusher waits on. -/
theorem second_pusher_stranded : ¬ ∀ ops : List (Op (Fin 3)), ¬ (ops.foldl Run.next three).Stranded := by
  intro hall
  refine hall [.call (some 0) ⟨some ⟨7, 1⟩, 0⟩, .call (some 0) ⟨some ⟨8, 1⟩, 0⟩,
    .call (some 1) ⟨some ⟨9, 1⟩, -1⟩, .call (some 2) ⟨some ⟨9, 2⟩, -1⟩, .call (some 0) ⟨none, 0⟩,
    .goOn 1, .call (some 0) ⟨none, 0⟩] ⟨?_, ?_, ?_⟩
  · decide +kernel
  · decide +kernel
  · decide +kernel

end EasyCore.DataQueue
