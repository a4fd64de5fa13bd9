import EasyCore.Kernel.Waiting
import EasyCore.Lib.Runs

/-! Events (`src/ipc.c`, `rt_event_*`).

    A receive that finds its condition satisfied takes the bits itself; otherwise it leaves its set
    and its option in the thread and waits, and a send walks along the waiters and serves those
    whose condition has come true. -/

namespace EasyCore.Ipc.Event
open Function EasyCore.Links EasyCore.Kernel EasyCore.Runs

/-- An `rt_uint32_t` used as a set of events. -/
abbrev Bits := BitVec 32

/-- `RT_EVENT_FLAG_AND`, `RT_EVENT_FLAG_OR` and `RT_EVENT_FLAG_CLEAR`. -/
def flagAnd : BitVec 8 := 1
def flagOr : BitVec 8 := 2
def flagClear : BitVec 8 := 4

/-- The threads with their `event_set` and `event_info`, and the events. -/
structure State (κ τ : Type*) where
  tasks : Tasks κ τ
  set : κ → Bits
  flag : κ → IpcFlag
  eventSet : τ → Bits
  eventInfo : τ → BitVec 8

variable {κ τ : Type*}

section Calls
variable [DecidableEq κ] [DecidableEq τ]

/-- The loop body of `rt_event_send` for a waiter: whether it is served, and its `event_set`. -/
def eventTest (info : BitVec 8) (eventSet set : Bits) : Bool × Bits :=
  if info &&& flagAnd ≠ 0 then (eventSet &&& set = eventSet, eventSet)
  else if info &&& flagOr ≠ 0 then
    if eventSet &&& set ≠ 0 then (true, eventSet &&& set) else (false, eventSet)
  else (false, eventSet)

/-- One round of the loop of `rt_event_send`. -/
def eventVisit (k : κ) (s : State κ τ) (thread : τ) : State κ τ :=
  let (served, eventSet) := eventTest (s.eventInfo thread) (s.eventSet thread) (s.set k)
  if served then
    { s with
      tasks := s.tasks.resume thread
      eventSet := update s.eventSet thread eventSet
      set := if s.eventInfo thread &&& flagClear ≠ 0 then update s.set k (s.set k &&& ~~~eventSet)
        else s.set }
  else s

/-- `event->set |= set`. -/
def State.raise (s : State κ τ) (k : κ) (set : Bits) : State κ τ :=
  { s with set := update s.set k (s.set k ||| set) }

/-- `rt_event_send`. -/
def rtEventSend (k : κ) (set : Bits) (s : State κ τ) : ℤ × State κ τ :=
  if set = 0 then (-rtError, s)
  else (rtEok, (s.tasks.suspended k).foldl (eventVisit k) (s.raise k set))

/-- The check of `rt_event_recv`; without an option that says how to check, it asserts. -/
def eventCheck (option : BitVec 8) (set eventSet : Bits) : Option Bool :=
  if option &&& flagAnd ≠ 0 then some (eventSet &&& set = set)
  else if option &&& flagOr ≠ 0 then some (eventSet &&& set ≠ 0)
  else none

/-- `rt_event_recv` up to its `rt_schedule`: the error number and the bits, if the caller does not
    wait. -/
def rtEventRecv (thread : τ) (k : κ) (set : Bits) (option : BitVec 8) (timeout : ℤ)
    (s : State κ τ) : Option (Option (ℤ × Option Bits) × State κ τ) :=
  if set = 0 then some (some (-rtError, none), s)
  else (eventCheck option set (s.set k)).map fun ok =>
    let tasks := s.tasks.setError thread rtEok
    if ok then
      (some (rtEok, some (s.set k &&& set)), { s with
        tasks := tasks
        set := if option &&& flagClear ≠ 0 then update s.set k (s.set k &&& ~~~set) else s.set })
    else if timeout = 0 then
      (some (-rtEtimeout, none), { s with tasks := tasks.setError thread (-rtEtimeout) })
    else (none, { s with
      tasks := tasks.sleep thread k (s.flag k) timeout
      eventSet := update s.eventSet thread set
      eventInfo := update s.eventInfo thread option })

/-- `rt_event_recv` from its `rt_schedule` on. -/
def eventGoOn (thread : τ) (s : State κ τ) : ℤ × Option Bits :=
  if s.tasks.error thread ≠ rtEok then (s.tasks.error thread, none)
  else (s.tasks.error thread, some (s.eventSet thread))

/-- `rt_event_control` with `RT_IPC_CMD_RESET`. -/
def rtEventReset (k : κ) (s : State κ τ) : State κ τ :=
  { s with tasks := s.tasks.ipcResumeAll k, set := update s.set k 0 }

end Calls

/-! ### Runs -/

/-- What happens: calls by a thread or an interrupt handler (only a thread may receive), a thread
    going on after the `rt_schedule` of its receive, and the timer of a thread. -/
inductive Op (κ τ : Type*)
  | send (c : Option τ) (k : κ) (set : Bits)
  | recv (t : τ) (k : κ) (set : Bits) (option : BitVec 8) (timeout : ℤ)
  | goOn (t : τ)
  | expire (t : τ)
  | reset (c : Option τ) (k : κ)

/-- What a receive asks for. -/
structure Want where
  set : Bits
  option : BitVec 8

/-- The state, the event on which the receive of a thread waits, what its receive asks for, and the
    set in the event when a send has last come to the thread. -/
structure Run (κ τ : Type*) where
  os : State κ τ
  pc : τ → Option κ
  want : τ → Want
  seen : τ → Bits

section Exec
variable [DecidableEq κ] [DecidableEq τ]

/-- The set in the event when a send comes to each waiter. -/
def seenBy (k : κ) : List τ → State κ τ → (τ → Bits) → τ → Bits
  | [], _, seen => seen
  | t :: l, s, seen => seenBy k l (eventVisit k s t) (update seen t (s.set k))

/-- One step of a run and the value returned in it. -/
def Run.exec (r : Run κ τ) : Op κ τ → Option (Option (ℤ × Option Bits) × Run κ τ)
  | .send c k set =>
    if r.os.tasks.Free r.pc c then
      let (e, os) := rtEventSend k set r.os
      some (some (e, none), { r with
        os := os
        seen := if set = 0 then r.seen
          else seenBy k (r.os.tasks.suspended k) (r.os.raise k set) r.seen })
    else none
  | .recv t k set option timeout =>
    if r.os.tasks.Free r.pc (some t) then
      (rtEventRecv t k set option timeout r.os).map fun (e, os) => (e, { r with
        os := os
        pc := if e = none then update r.pc t (some k) else r.pc
        want := if e = none then update r.want t ⟨set, option⟩ else r.want })
    else none
  | .goOn t => (r.pc t).bind fun _ =>
    if r.os.tasks.stat t = .ready then
      some (some (eventGoOn t r.os), { r with pc := update r.pc t none })
    else none
  | .expire t => (r.os.tasks.expire t).map fun tasks =>
      (none, { r with os := { r.os with tasks := tasks } })
  | .reset c k =>
    if r.os.tasks.Free r.pc c then
      some (some (rtEok, none), { r with os := rtEventReset k r.os })
    else none

/-- The events just initialised, nobody waiting. -/
def Run.Init (r : Run κ τ) : Prop :=
  (∀ k, r.os.tasks.suspended k = []) ∧ (∀ k, r.os.set k = 0) ∧ ∀ t, r.pc t = none

/-- The runs of any number of threads on any number of events. -/
def system : System (Run κ τ) (Op κ τ) where
  init := Run.Init
  step r op r' := ∃ e, r.exec op = some (e, r')

end Exec

/-! ### What a receive asks for -/

namespace Want

/-- All the bits it asks for are there, or one of them. -/
def Satisfied (w : Want) (set : Bits) : Prop :=
  if w.option &&& flagAnd ≠ 0 then w.set &&& set = w.set
  else w.option &&& flagOr ≠ 0 ∧ w.set &&& set ≠ 0

instance (w : Want) (set : Bits) : Decidable (w.Satisfied set) := by
  unfold Satisfied
  infer_instance

/-- The bits that satisfy it. -/
def bits (w : Want) (set : Bits) : Bits := w.set &&& set

/-- What it leaves. -/
def rest (w : Want) (set : Bits) : Bits :=
  if w.option &&& flagClear ≠ 0 then set &&& ~~~w.bits set else set

variable {w : Want} {set set' : Bits}

/-- More bits satisfy it, too. -/
theorem Satisfied.mono (h : w.Satisfied set) (hs : set &&& set' = set) : w.Satisfied set' := by
  have hand : (w.set &&& set') &&& set = w.set &&& set := by
    rw [BitVec.and_assoc, BitVec.and_comm set', hs]
  unfold Satisfied at h ⊢
  split at h
  next ha =>
    rw [if_pos ha]
    rw [← h] at hand ⊢
    rw [BitVec.and_assoc, hs]
  next ha =>
    rw [if_neg ha]
    refine ⟨h.1, fun h0 => h.2 ?_⟩
    rw [← hand, h0]
    exact BitVec.zero_and

/-- What it leaves is a part of the set. -/
theorem rest_and (w : Want) (set : Bits) : w.rest set &&& set = w.rest set := by
  unfold rest
  split
  · rw [BitVec.and_assoc, BitVec.and_comm (~~~_), ← BitVec.and_assoc, BitVec.and_self]
  · rw [BitVec.and_self]

/-- Clearing the bits asked for is clearing the bits got. -/
theorem and_not_bits (w : Want) (set : Bits) : set &&& ~~~w.bits set = set &&& ~~~w.set := by
  ext i hi
  simp only [bits, BitVec.getElem_and, BitVec.getElem_not]
  cases set[i] <;> simp

/-- The test made by a send. -/
theorem eventTest_eq : eventTest w.option w.set set =
    (decide (w.Satisfied set), if w.Satisfied set then w.bits set else w.set) := by
  unfold eventTest Satisfied bits
  split
  · split <;> simp_all
  · split
    · split <;> simp_all
    · simp_all

/-- The check made by a receive. -/
theorem eventCheck_eq {ok : Bool} (h : eventCheck w.option w.set set = some ok) :
    ok = decide (w.Satisfied set) := by
  unfold eventCheck at h
  unfold Satisfied
  rw [BitVec.and_comm set] at h
  split at h
  next ha =>
    obtain rfl := Option.some.inj h
    simp only [if_pos ha]
  next ha =>
    split at h
    next ho =>
      obtain rfl := Option.some.inj h
      simp only [if_neg ha, ho, ne_eq, not_false_eq_true, true_and]
    · exact absurd h (by simp)

end Want

/-! ### What a step can do -/

section Cases
variable [DecidableEq κ] [DecidableEq τ] {r r' : Run κ τ} {c : Option τ} {t : τ} {k : κ}
  {set : Bits} {option : BitVec 8} {timeout : ℤ} {e : Option (ℤ × Option Bits)}

/-- A receive is refused, takes its bits, gives up at once, or waits. -/
theorem recv_cases (h : r.exec (.recv t k set option timeout) = some (e, r')) :
    r.os.tasks.Free r.pc (some t) ∧
    (set = 0 ∧ e = some (-rtError, none) ∧ r' = r ∨
      Want.Satisfied ⟨set, option⟩ (r.os.set k) ∧
        e = some (rtEok, some (Want.bits ⟨set, option⟩ (r.os.set k))) ∧
        r' = { r with os := { r.os with
          tasks := r.os.tasks.setError t rtEok
          set := update r.os.set k (Want.rest ⟨set, option⟩ (r.os.set k)) } } ∨
      timeout = 0 ∧ e = some (-rtEtimeout, none) ∧
        r' = { r with os := { r.os with tasks := r.os.tasks.setError t (-rtEtimeout) } } ∨
      (set ≠ 0 ∧ timeout ≠ 0) ∧ ¬Want.Satisfied ⟨set, option⟩ (r.os.set k) ∧ e = none ∧
        r' = { r with
          os := { r.os with
            tasks := (r.os.tasks.setError t rtEok).sleep t k (r.os.flag k) timeout
            eventSet := update r.os.eventSet t set
            eventInfo := update r.os.eventInfo t option }
          pc := update r.pc t (some k)
          want := update r.want t ⟨set, option⟩ }) := by
  obtain ⟨hf, h⟩ := Option.ite_none_right_eq_some.1 h
  refine ⟨hf, ?_⟩
  obtain ⟨⟨e', os⟩, hr, he⟩ := Option.map_eq_some_iff.1 h
  obtain ⟨rfl, rfl⟩ := Prod.mk.inj he
  unfold rtEventRecv at hr
  split at hr
  next h0 =>
    obtain ⟨rfl, rfl⟩ := Prod.mk.inj (Option.some.inj hr)
    exact .inl ⟨h0, rfl, rfl⟩
  next h0 =>
    obtain ⟨ok, hok, hr⟩ := Option.map_eq_some_iff.1 hr
    have hsat := Want.eventCheck_eq (w := ⟨set, option⟩) hok
    dsimp only at hr
    split at hr
    next ht =>
      obtain ⟨rfl, rfl⟩ := Prod.mk.inj hr
      refine .inr (.inl ⟨by simpa [ht] using hsat, by rw [Want.bits, BitVec.and_comm], ?_⟩)
      simp only [Want.rest, Want.and_not_bits, reduceCtorEq, if_false]
      split <;> simp
    next hn =>
      split at hr
      next ht =>
        obtain ⟨rfl, rfl⟩ := Prod.mk.inj hr
        exact .inr (.inr (.inl ⟨ht, rfl, by simp⟩))
      next ht =>
        obtain ⟨rfl, rfl⟩ := Prod.mk.inj hr
        exact .inr (.inr (.inr ⟨⟨h0, ht⟩, by simpa [hn] using hsat, rfl, by simp⟩))

/-- A send does nothing or walks along the waiters. -/
theorem send_cases (h : r.exec (.send c k set) = some (e, r')) :
    (set = 0 ∧ e = some (-rtError, none) ∧ r' = r) ∨
    (set ≠ 0 ∧ e = some (rtEok, none) ∧ r' = { r with
      os := (r.os.tasks.suspended k).foldl (eventVisit k) (r.os.raise k set)
      seen := seenBy k (r.os.tasks.suspended k) (r.os.raise k set) r.seen }) := by
  unfold Run.exec rtEventSend at h
  obtain ⟨-, h⟩ := Option.ite_none_right_eq_some.1 h
  by_cases h0 : set = 0
  · rw [if_pos h0, if_pos h0] at h
    obtain ⟨rfl, rfl⟩ := Prod.mk.inj (Option.some.inj h)
    exact .inl ⟨h0, rfl, rfl⟩
  · rw [if_neg h0, if_neg h0] at h
    obtain ⟨rfl, rfl⟩ := Prod.mk.inj (Option.some.inj h)
    exact .inr ⟨h0, rfl, rfl⟩

/-- A thread that has been made ready returns. -/
theorem goOn_cases (h : r.exec (.goOn t) = some (e, r')) :
    ∃ k, r.pc t = some k ∧ r.os.tasks.stat t = .ready ∧ e = some (eventGoOn t r.os) ∧
      r' = { r with pc := update r.pc t none } := by
  obtain ⟨k, hk, h⟩ := Option.bind_eq_some_iff.1 h
  obtain ⟨hr, h⟩ := Option.ite_none_right_eq_some.1 h
  obtain ⟨rfl, rfl⟩ := Prod.mk.inj (Option.some.inj h)
  exact ⟨k, hk, hr, rfl, rfl⟩

/-- A visit serves a waiter if its condition is satisfied. -/
theorem eventVisit_eq {s : State κ τ} {w : Want} (hs : s.eventSet t = w.set)
    (hi : s.eventInfo t = w.option) : eventVisit k s t =
      if w.Satisfied (s.set k) then { s with
        tasks := s.tasks.resume t
        eventSet := update s.eventSet t (w.bits (s.set k))
        set := update s.set k (w.rest (s.set k)) }
      else s := by
  unfold eventVisit
  rw [hs, hi, Want.eventTest_eq]
  by_cases h : w.Satisfied (s.set k)
  · simp only [h, decide_true, if_true, Want.rest]
    split <;> simp
  · simp [h]

end Cases

/-! ### The walk along the waiters -/

section Walk
variable [DecidableEq κ] [DecidableEq τ]

/-- The set after a walk that serves each waiter in turn. -/
def serve (want : τ → Want) (set : Bits) (l : List τ) : Bits :=
  l.foldl (fun set t => if (want t).Satisfied set then (want t).rest set else set) set

/-- A send comes to a waiter. -/
def Run.visit (r : Run κ τ) (k : κ) (t : τ) : Run κ τ :=
  { r with os := eventVisit k r.os t, seen := update r.seen t (r.os.set k) }

/-- The invariant, while sends have still to come to the waiters `todo`: what a waiter asks for is
    in its thread, is not in the event, and is what a thread woken by a send has got. -/
structure Inv (todo : κ → List τ) (r : Run κ τ) : Prop where
  waiting : Waiting r.os.tasks r.pc
  asks : ∀ {k t}, t ∈ r.os.tasks.suspended k → r.os.eventSet t = (r.want t).set ∧
    r.os.eventInfo t = (r.want t).option ∧ r.os.tasks.error t = rtEok
  patient : ∀ {k t}, t ∈ r.os.tasks.suspended k → t ∉ todo k → ¬(r.want t).Satisfied (r.os.set k)
  granted : ∀ {k t}, Granted r.os.tasks r.pc k t → (r.want t).Satisfied (r.seen t) ∧
    r.os.eventSet t = (r.want t).bits (r.seen t)

variable {r r' : Run κ τ} {todo : κ → List τ} {l : List τ} {t : τ} {k : κ} {set : Bits}

omit [DecidableEq κ] [DecidableEq τ] in
/-- A thread that was granted what it waits for waits no more. -/
theorem not_mem_of_granted {k' : κ} (w : Waiting r.os.tasks r.pc)
    (h : Granted r.os.tasks r.pc k' t) : t ∉ r.os.tasks.suspended k := by
  intro hm
  obtain rfl := Option.some.inj ((w.mem hm).1.symm.trans h.1)
  exact h.2.1 hm

omit [DecidableEq τ] in
/-- A smaller set satisfies nobody new. -/
theorem Inv.patient_rest (i : Inv todo r) {w : Want} {k' : κ} (hm : t ∈ r.os.tasks.suspended k')
    (ht : t ∉ todo k') :
    ¬(r.want t).Satisfied (update r.os.set k (w.rest (r.os.set k)) k') := by
  by_cases hk : k' = k
  · subst hk
    rw [update_self]
    exact fun h => i.patient hm ht (h.mono (w.rest_and _))
  · rw [update_of_ne hk]
    exact i.patient hm ht

/-- One round of the walk. -/
theorem Inv.visit (i : Inv todo r) (ht : t ∈ r.os.tasks.suspended k) (hl : todo k = t :: l) :
    Inv (update todo k l) (r.visit k t) ∧
      (r.visit k t).os.set = update r.os.set k (serve r.want (r.os.set k) [t]) ∧
      ∀ u, u ≠ t → ∀ k', u ∈ r.os.tasks.suspended k' → u ∈ (r.visit k t).os.tasks.suspended k' := by
  obtain ⟨hs, hi, he⟩ := i.asks ht
  have hother : ∀ {k' u}, u ≠ t → u ∉ update todo k l k' → u ∉ todo k' := by
    intro k' u hu hm
    by_cases hk : k' = k
    · subst hk
      rw [update_self] at hm
      rw [hl, List.mem_cons]
      exact fun h => h.elim hu hm
    · rwa [update_of_ne hk] at hm
  unfold Run.visit
  rw [eventVisit_eq hs hi]
  by_cases hsat : (r.want t).Satisfied (r.os.set k)
  · rw [if_pos hsat]
    obtain ⟨hsus, -, herr, -⟩ := resume_fields (i.waiting.mem ht).2
    have hmem : ∀ {k' u}, u ∈ (r.os.tasks.resume t).suspended k' → u ≠ t ∧
        u ∈ r.os.tasks.suspended k' := by
      intro k' u hu
      rw [hsus] at hu
      have hut : u ≠ t := fun e => not_mem_without (i.waiting.nodup k') (e ▸ hu)
      rw [mem_without_of_ne hut] at hu
      exact ⟨hut, hu⟩
    refine ⟨⟨i.waiting.resume ht, fun {k' u} hu => ?_, fun {k' u} hu hm => ?_, fun {k' u} hg => ?_⟩,
      ?_, fun u hu k' hm => ?_⟩
    · obtain ⟨hut, hu⟩ := hmem hu
      simp only [herr, update_of_ne hut]
      exact i.asks hu
    · obtain ⟨hut, hu⟩ := hmem hu
      exact i.patient_rest hu (hother hut hm)
    · rcases (granted_resume i.waiting ht he).1 hg with hg | ⟨rfl, rfl⟩
      · have hut : u ≠ t := fun e => not_mem_of_granted i.waiting hg (e ▸ ht)
        simp only [update_of_ne hut]
        exact i.granted hg
      · simp only [update_self, and_true]
        exact hsat
    · simp [serve, hsat]
    · simp only [hsus, mem_without_of_ne hu]
      exact hm
  · rw [if_neg hsat]
    refine ⟨⟨i.waiting, i.asks, fun {k' u} hu hm => ?_, fun {k' u} hg => ?_⟩, ?_,
      fun u hu k' hm => hm⟩
    · by_cases hut : u = t
      · subst hut
        obtain rfl := i.waiting.uniq hu ht
        exact hsat
      · exact i.patient hu (hother hut hm)
    · have hut : u ≠ t := fun e => not_mem_of_granted i.waiting hg (e ▸ ht)
      simp only [update_of_ne hut]
      exact i.granted hg
    · simp [serve, hsat]

/-- The whole walk is done round by round. -/
theorem foldl_visit : ∀ (l : List τ) (r : Run κ τ), l.foldl (fun r t => r.visit k t) r =
    { r with os := l.foldl (eventVisit k) r.os, seen := seenBy k l r.os r.seen }
  | [], _ => rfl
  | t :: l, r => by
    rw [List.foldl_cons, foldl_visit l (r.visit k t)]
    rfl

/-- The walk comes to all waiters. -/
theorem Inv.walk : ∀ (l : List τ) {todo : κ → List τ} {r : Run κ τ}, Inv todo r → todo k = l →
    l.Nodup → (∀ t ∈ l, t ∈ r.os.tasks.suspended k) →
    Inv (update todo k []) (l.foldl (fun r t => r.visit k t) r) ∧
      (l.foldl (fun r t => r.visit k t) r).os.set = update r.os.set k (serve r.want (r.os.set k) l)
  | [], todo, r, i, hl, _, _ => by
    have htodo : update todo k [] = todo := by rw [← hl, update_eq_self]
    rw [htodo]
    exact ⟨i, (update_eq_self k _).symm⟩
  | t :: l, todo, r, i, hl, hnd, hm => by
    obtain ⟨hv, hset, hstay⟩ := i.visit (hm t List.mem_cons_self) hl
    obtain ⟨hnt, hnd⟩ := List.nodup_cons.1 hnd
    obtain ⟨hw, hs⟩ := hv.walk l (update_self k l todo) hnd fun u hu =>
      hstay u (fun e => hnt (e ▸ hu)) k (hm u (List.mem_cons_of_mem t hu))
    rw [update_idem] at hw
    refine ⟨hw, ?_⟩
    rw [List.foldl_cons, hs, hset, update_self, update_idem]
    rfl

end Walk

/-! ### Every run -/

section Steps
variable [DecidableEq κ] [DecidableEq τ]

/-- What an event promises. Nobody is left waiting whose condition is satisfied; a receive, whether
    it takes its bits itself or has been served by a send, returns the bits that satisfied it; a
    send serves the waiters in turn; and whether the only receiver comes before the send or after
    it, it gets the same bits and leaves the same set. -/
structure Serves (r : Run κ τ) : Prop where
  patient : ∀ {k t}, t ∈ r.os.tasks.suspended k → ¬(r.want t).Satisfied (r.os.set k)
  served : ∀ t b r', r.exec (.goOn t) = some (some (rtEok, b), r') →
    (r.want t).Satisfied (r.seen t) ∧ b = some ((r.want t).bits (r.seen t))
  takes : ∀ t k set option timeout b r',
    r.exec (.recv t k set option timeout) = some (some (rtEok, b), r') →
      Want.Satisfied ⟨set, option⟩ (r.os.set k) ∧
        b = some (Want.bits ⟨set, option⟩ (r.os.set k)) ∧
        r'.os.set = update r.os.set k (Want.rest ⟨set, option⟩ (r.os.set k))
  sends : ∀ c k set e r', r.exec (.send c k set) = some (e, r') → set ≠ 0 →
    r'.os.set = update r.os.set k (serve r.want (r.os.set k ||| set) (r.os.tasks.suspended k))
  commutes : ∀ c t k set option timeout sent e₁ e₂ x r₁ r₂ q₁ q₂,
    r.os.tasks.suspended k = [] →
    r.exec (.recv t k set option timeout) = some (none, r₁) →
    r₁.exec (.send c k sent) = some (e₁, r₂) →
    r.exec (.send c k sent) = some (e₂, q₁) →
    q₁.exec (.recv t k set option timeout) = some (x, q₂) →
      r₂.os.set = q₂.os.set ∧
        (x = none → t ∈ r₂.os.tasks.suspended k) ∧
        ∀ y, x = some y → ∃ r₃, r₂.exec (.goOn t) = some (some y, r₃) ∧ r₃.os.set = q₂.os.set

variable {r r' : Run κ τ} {c : Option τ} {t : τ} {k : κ} {set : Bits} {option : BitVec 8}
  {timeout : ℤ} {e : Option (ℤ × Option Bits)}

omit [DecidableEq κ] [DecidableEq τ] in
theorem init_inv (h : r.Init) : Inv (fun _ => []) r where
  waiting := .empty h.1 h.2.2
  asks ht := by simp [h.1] at ht
  patient ht := by simp [h.1] at ht
  granted hg := absurd hg.1 (by simp [h.2.2])

/-- A send. -/
theorem Inv.send (i : Inv (fun _ => []) r) (h : r.exec (.send c k set) = some (e, r')) :
    Inv (fun _ => []) r' ∧ (set ≠ 0 → r'.os.set =
      update r.os.set k (serve r.want (r.os.set k ||| set) (r.os.tasks.suspended k))) := by
  rcases send_cases h with ⟨h0, -, rfl⟩ | ⟨-, -, rfl⟩
  · exact ⟨i, fun hn => absurd h0 hn⟩
  · -- once the bits are raised, no waiter of the event can be relied on to be unsatisfied
    have hr : Inv (update (fun _ => []) k (r.os.tasks.suspended k))
        { r with os := r.os.raise k set } := by
      refine ⟨i.waiting, i.asks, fun {k' u} hu hm => ?_, i.granted⟩
      by_cases hk : k' = k
      · subst hk
        rw [update_self] at hm
        exact absurd hu hm
      · simp only [State.raise, update_of_ne hk]
        exact i.patient hu List.not_mem_nil
    obtain ⟨hw, hs⟩ := hr.walk (r.os.tasks.suspended k) (update_self k _ _) (i.waiting.nodup k)
      fun _ hu => hu
    rw [update_idem, update_eq_self_iff.2 rfl, foldl_visit] at hw
    rw [foldl_visit] at hs
    refine ⟨hw, fun _ => ?_⟩
    simpa only [State.raise, update_self, update_idem] using hs

/-- A receive that takes its bits. -/
theorem Inv.take (i : Inv (fun _ => []) r) (hn : r.pc t = none) (w : Want) :
    Inv (fun _ => []) { r with os := { r.os with
      tasks := r.os.tasks.setError t rtEok
      set := update r.os.set k (w.rest (r.os.set k)) } } := by
  refine ⟨i.waiting.congr (by simp) (by simp), fun {k' u} hu => ?_, fun {k' u} hu hm => ?_,
    fun {k' u} hg => i.granted ((granted_setError hn _).1 hg)⟩
  · simp only [setError_fields] at hu ⊢
    have hut : u ≠ t := by
      rintro rfl
      exact absurd (hn.symm.trans (i.waiting.mem hu).1) (by simp)
    simp only [update_of_ne hut]
    exact i.asks hu
  · simp only [setError_fields] at hu
    exact i.patient_rest hu hm

omit [DecidableEq κ] in
/-- A receive that gives up. -/
theorem Inv.giveUp (i : Inv (fun _ => []) r) (hn : r.pc t = none) (e : ℤ) :
    Inv (fun _ => []) { r with os := { r.os with tasks := r.os.tasks.setError t e } } := by
  refine ⟨i.waiting.congr (by simp) (by simp), fun {k' u} hu => ?_, fun {k' u} hu hm => ?_,
    fun {k' u} hg => i.granted ((granted_setError hn _).1 hg)⟩
  · simp only [setError_fields] at hu ⊢
    have hut : u ≠ t := by
      rintro rfl
      exact absurd (hn.symm.trans (i.waiting.mem hu).1) (by simp)
    simp only [update_of_ne hut]
    exact i.asks hu
  · simp only [setError_fields] at hu
    exact i.patient hu hm

/-- A receive that goes to sleep. -/
theorem Inv.sleep (i : Inv (fun _ => []) r) (hf : r.os.tasks.Free r.pc (some t))
    (hsat : ¬Want.Satisfied ⟨set, option⟩ (r.os.set k)) :
    Inv (fun _ => []) { r with
      os := { r.os with
        tasks := (r.os.tasks.setError t rtEok).sleep t k (r.os.flag k) timeout
        eventSet := update r.os.eventSet t set
        eventInfo := update r.os.eventInfo t option }
      pc := update r.pc t (some k)
      want := update r.want t ⟨set, option⟩ } := by
  have w : Waiting (r.os.tasks.setError t rtEok) r.pc := i.waiting.congr (by simp) (by simp)
  have hr : (r.os.tasks.setError t rtEok).stat t = .ready := by simpa using hf.2
  obtain ⟨hs, -, he, -⟩ := sleep_fields (k := k) hr (r.os.flag k) timeout
  simp only [setError_fields] at hs he
  have hp := insertWaiter_perm (r.os.flag k) r.os.tasks.prio t (r.os.tasks.suspended k)
  have hmem : ∀ {k' u}, u ≠ t →
      u ∈ ((r.os.tasks.setError t rtEok).sleep t k (r.os.flag k) timeout).suspended k' →
      u ∈ r.os.tasks.suspended k' := by
    intro k' u hu hm
    rw [hs] at hm
    by_cases hk : k' = k
    · subst hk
      rw [update_self, hp.mem_iff, List.mem_cons] at hm
      exact hm.resolve_left hu
    · rwa [update_of_ne hk] at hm
  have hself : ∀ {k'},
      t ∈ ((r.os.tasks.setError t rtEok).sleep t k (r.os.flag k) timeout).suspended k' →
      k' = k := by
    intro k' hm
    by_contra hk
    rw [hs, update_of_ne hk] at hm
    exact i.waiting.not_mem hf.2 k' hm
  refine ⟨w.sleep hr _ _, fun {k' u} hu => ?_, fun {k' u} hu hm => ?_, fun {k' u} hg => ?_⟩
  · by_cases hut : u = t
    · subst hut
      simp [he]
    · simp only [he, update_of_ne hut]
      exact i.asks (hmem hut hu)
  · by_cases hut : u = t
    · subst hut
      obtain rfl := hself hu
      simp only [update_self]
      exact hsat
    · simp only [update_of_ne hut]
      exact i.patient (hmem hut hu) hm
  · have hg' : Granted r.os.tasks r.pc k' u :=
      (granted_block hf.1 hs hp fun v hv => by rw [he, update_of_ne hv]).1 hg
    have hut : u ≠ t := hg'.ne hf.1
    simp only [update_of_ne hut]
    exact i.granted hg'

omit [DecidableEq κ] in
/-- A timer that fires. -/
theorem Inv.expire (i : Inv (fun _ => []) r) {tasks : Tasks κ τ}
    (h : r.os.tasks.expire t = some tasks) :
    Inv (fun _ => []) { r with os := { r.os with tasks := tasks } } := by
  obtain ⟨-, hs, -, he, -⟩ := expire_fields h
  have hmem : ∀ {k' u}, u ∈ tasks.suspended k' → u ≠ t ∧ u ∈ r.os.tasks.suspended k' := by
    intro k' u hu
    rw [hs] at hu
    have hut : u ≠ t := fun e => not_mem_without (i.waiting.nodup k') (e ▸ hu)
    rw [mem_without_of_ne hut] at hu
    exact ⟨hut, hu⟩
  refine ⟨i.waiting.expire h, fun {k' u} hu => ?_, fun {k' u} hu hm => i.patient (hmem hu).2 hm,
    fun {k' u} hg => i.granted ((granted_expire i.waiting h).1 hg)⟩
  obtain ⟨hut, hu⟩ := hmem hu
  simp only [he, update_of_ne hut]
  exact i.asks hu

/-- A reset sends all waiters away with an error. -/
theorem Inv.reset (i : Inv (fun _ => []) r) (k : κ) :
    Inv (fun _ => []) { r with os := rtEventReset k r.os } := by
  obtain ⟨hs, -, he, -, -, w⟩ := i.waiting.ipcResumeAll_fields k
  have hmem : ∀ {k' u}, u ∈ (r.os.tasks.ipcResumeAll k).suspended k' → k' ≠ k ∧
      u ∈ r.os.tasks.suspended k' := by
    intro k' u hu
    rw [hs] at hu
    have hk : k' ≠ k := by
      rintro rfl
      simp at hu
    rw [update_of_ne hk] at hu
    exact ⟨hk, hu⟩
  refine ⟨w, fun {k' u} hu => ?_, fun {k' u} hu hm => ?_, fun {k' u} hg => i.granted ⟨hg.1, ?_, ?_⟩⟩
  · obtain ⟨hk, hu⟩ := hmem hu
    have hout : u ∉ r.os.tasks.suspended k := fun h => hk (i.waiting.uniq hu h)
    simp only [rtEventReset, he, if_neg hout]
    exact i.asks hu
  · obtain ⟨hk, hu⟩ := hmem hu
    simp only [rtEventReset, update_of_ne hk]
    exact i.patient hu hm
  all_goals
    obtain ⟨-, hn, herr⟩ := hg
    have hout : u ∉ r.os.tasks.suspended k := fun h => by
      simp only [rtEventReset, he, if_pos h] at herr
      exact absurd herr (by decide)
    simp only [rtEventReset, he, hs, if_neg hout] at herr hn
  · intro hm
    have hk : k' ≠ k := fun e => hout (e ▸ hm)
    rw [update_of_ne hk] at hn
    exact hn hm
  · exact herr

/-- One step keeps the invariant. -/
theorem Inv.step (i : Inv (fun _ => []) r) {op : Op κ τ} (h : r.exec op = some (e, r')) :
    Inv (fun _ => []) r' := by
  cases op with
  | send c k set => exact (i.send h).1
  | recv t k set option timeout =>
    obtain ⟨hf, ⟨-, -, rfl⟩ | ⟨-, -, rfl⟩ | ⟨-, -, rfl⟩ | ⟨-, hsat, -, rfl⟩⟩ := recv_cases h
    · exact i
    · exact i.take hf.1 _
    · exact i.giveUp hf.1 _
    · exact i.sleep hf hsat
  | goOn t =>
    obtain ⟨k, -, hr, -, rfl⟩ := goOn_cases h
    exact ⟨i.waiting.leave hr, i.asks, i.patient, fun hg => i.granted (granted_leave.1 hg).1⟩
  | expire t =>
    obtain ⟨tasks, ht, h⟩ := Option.map_eq_some_iff.1 h
    obtain ⟨-, rfl⟩ := Prod.mk.inj h
    exact i.expire ht
  | reset c k =>
    obtain ⟨-, h⟩ := Option.ite_none_right_eq_some.1 h
    obtain ⟨-, rfl⟩ := Prod.mk.inj (Option.some.inj h)
    exact i.reset k

omit [DecidableEq κ] [DecidableEq τ] in
/-- The only waiter. -/
theorem insertWaiter_nil {flag : IpcFlag} {prio : τ → ℕ} : insertWaiter flag prio t [] = [t] := by
  cases flag <;> rfl

/-- One receive that has to wait and one send, in either order. -/
theorem commutes {sent : Bits} {e₁ e₂ x : Option (ℤ × Option Bits)} {r₁ r₂ q₁ q₂ : Run κ τ}
    (hempty : r.os.tasks.suspended k = [])
    (h₁ : r.exec (.recv t k set option timeout) = some (none, r₁))
    (h₂ : r₁.exec (.send c k sent) = some (e₁, r₂))
    (h₃ : r.exec (.send c k sent) = some (e₂, q₁))
    (h₄ : q₁.exec (.recv t k set option timeout) = some (x, q₂)) :
    r₂.os.set = q₂.os.set ∧ (x = none → t ∈ r₂.os.tasks.suspended k) ∧
      ∀ y, x = some y → ∃ r₃, r₂.exec (.goOn t) = some (some y, r₃) ∧ r₃.os.set = q₂.os.set := by
  obtain ⟨hf, ⟨-, he, -⟩ | ⟨-, he, -⟩ | ⟨-, he, -⟩ | ⟨⟨hset, htime⟩, hsat, -, hr₁⟩⟩ := recv_cases h₁
  · exact absurd he (by simp)
  · exact absurd he (by simp)
  · exact absurd he (by simp)
  have hready : (r.os.tasks.setError t rtEok).stat t = .ready := by simpa using hf.2
  obtain ⟨hsus, hstat, herr, -⟩ := sleep_fields (k := k) hready (r.os.flag k) timeout
  simp only [setError_fields, hempty, insertWaiter_nil] at hsus hstat herr
  have hsus₁ : r₁.os.tasks.suspended k = [t] := by simp [hr₁, hsus]
  rcases send_cases h₃ with ⟨h0, -, rfl⟩ | ⟨h0, -, hq₁⟩
  · -- nothing is sent
    rcases send_cases h₂ with ⟨-, -, rfl⟩ | ⟨hn, -⟩
    · obtain ⟨rfl, rfl⟩ := Prod.mk.inj (Option.some.inj (h₁.symm.trans h₄))
      exact ⟨rfl, fun _ => hsus₁ ▸ List.mem_cons_self, fun y hy => absurd hy (by simp)⟩
    · exact absurd h0 hn
  rcases send_cases h₂ with ⟨hn, -⟩ | ⟨-, -, hr₂⟩
  · exact absurd hn h0
  have hset₁ : r₁.os.set = r.os.set := by rw [hr₁]
  -- the send comes to the waiter that the receive has left behind
  have hos₂ : r₂.os = eventVisit k (r₁.os.raise k sent) t := by
    rw [hr₂, hsus₁]
    rfl
  have hvisit := @eventVisit_eq _ _ _ _ t k (r₁.os.raise k sent) ⟨set, option⟩
    (by simp [hr₁, State.raise]) (by simp [hr₁, State.raise])
  have hraise : (r₁.os.raise k sent).set k = r.os.set k ||| sent := by
    simp [State.raise, hset₁]
  rw [← hos₂, hraise] at hvisit
  have hq : q₁.os.set = update r.os.set k (r.os.set k ||| sent) := by
    rw [hq₁, hempty]
    rfl
  obtain ⟨-, ⟨hn, -⟩ | ⟨hsat', rfl, hq₂⟩ | ⟨hn, -⟩ | ⟨-, hsat', rfl, hq₂⟩⟩ := recv_cases h₄
  · exact absurd hn hset
  · -- the bits sent satisfy it
    rw [hq, update_self] at hsat'
    rw [if_pos hsat'] at hvisit
    have hset₂ : r₂.os.set = q₂.os.set := by
      simp [hvisit, hq₂, hq, State.raise, hset₁]
    have hsusp : r₁.os.tasks.stat t = .suspend := by simp [hr₁, hstat]
    have herr₁ : r₁.os.tasks.error t = rtEok := by simp [hr₁, herr]
    obtain ⟨-, hst, her, -⟩ := resume_fields hsusp
    have htasks : r₂.os.tasks = r₁.os.tasks.resume t := by
      rw [hvisit]
      rfl
    have hstat₂ : r₂.os.tasks.stat t = .ready := by rw [htasks, hst, update_self]
    have herr₂ : r₂.os.tasks.error t = rtEok := by rw [htasks, her, herr₁]
    have hbits : r₂.os.eventSet t = Want.bits ⟨set, option⟩ (r.os.set k ||| sent) := by
      rw [hvisit]
      simp
    have hpc₂ : r₂.pc t = some k := by simp [hr₂, hr₁]
    refine ⟨hset₂, fun hx => absurd hx (by simp), fun y hy => ?_⟩
    obtain rfl := Option.some.inj hy
    refine ⟨{ r₂ with pc := update r₂.pc t none }, ?_, hset₂⟩
    simp [Run.exec, hpc₂, hstat₂, eventGoOn, herr₂, hbits, hq]
  · exact absurd hn htime
  · -- they do not
    rw [hq, update_self] at hsat'
    rw [if_neg hsat'] at hvisit
    refine ⟨?_, fun _ => ?_, fun y hy => absurd hy (by simp)⟩
    · simp [hvisit, hq₂, hq, State.raise, hset₁]
    · rw [hvisit]
      simp [State.raise, hsus₁]

theorem Inv.serves (i : Inv (fun _ => []) r) : Serves r where
  patient ht := i.patient ht List.not_mem_nil
  served t b r' h := by
    obtain ⟨k, hk, hr, he, rfl⟩ := goOn_cases h
    unfold eventGoOn at he
    split at he
    next hne => exact absurd (Prod.mk.inj (Option.some.inj he)).1.symm hne
    next heok =>
      obtain ⟨-, rfl⟩ := Prod.mk.inj (Option.some.inj he)
      obtain ⟨hs, hb⟩ := i.granted ⟨hk, i.waiting.not_mem hr k, not_not.1 heok⟩
      exact ⟨hs, congrArg some hb⟩
  takes t k set option timeout b r' h := by
    obtain ⟨-, ⟨-, he, -⟩ | ⟨hsat, he, rfl⟩ | ⟨-, he, -⟩ | ⟨-, -, he, -⟩⟩ := recv_cases h
    · exact absurd (Prod.mk.inj (Option.some.inj he)).1 (by decide)
    · exact ⟨hsat, (Prod.mk.inj (Option.some.inj he)).2, rfl⟩
    · exact absurd (Prod.mk.inj (Option.some.inj he)).1 (by decide)
    · exact absurd he (by simp)
  sends c k set e r' h := (i.send h).2
  commutes _ _ _ _ _ _ _ _ _ _ _ _ _ _ hempty h₁ h₂ h₃ h₄ := Event.commutes hempty h₁ h₂ h₃ h₄

theorem exec_step {op : Op κ τ} (h : (r.exec op).map Prod.snd = some r') :
    True ∧ system.step r op r' := by
  obtain ⟨⟨e, r₁⟩, hr, rfl⟩ := Option.map_eq_some_iff.1 h
  exact ⟨trivial, e, hr⟩

/-- CORRECT: in every run of sends and receives with any sets and options. -/
theorem serves_of_reachable (h : Reachable system r) : Serves r := by
  refine Inv.serves (h.invariant (fun _ hi => init_inv hi) ?_)
  rintro r op r' hi - ⟨e, hs⟩
  exact hi.step hs

/-- One event and threads that are ready. -/
def board : Run Unit ℕ where
  os := { tasks := ⟨fun t => ⟨.ready, t, t, 0, 0, 0, 0, false, false, true⟩, fun _ => []⟩
          set _ := 0
          flag _ := .prio
          eventSet _ := 0
          eventInfo _ := 0 }
  pc _ := none
  want _ := ⟨0, 0⟩
  seen _ := 0

theorem board_init : board.Init := ⟨fun _ => rfl, fun _ => rfl, fun _ => rfl⟩

/-- A send serves one of three waiters, the next send another; the third waits too long. -/
def boardRun : List (Op Unit ℕ) :=
  [.recv 3 () 6 6 (-1), .recv 4 () 3 5 10, .recv 5 () 4 1 10, .send none () 7, .goOn 3, .expire 5,
    .goOn 5, .send (some 3) () 2, .goOn 4, .recv 3 () 1 2 0, .reset none ()]

theorem serves_of_reachable_board :
    ∃ r, replay (fun r op => (Run.exec r op).map Prod.snd) board boardRun = some r ∧ Serves r := by
  obtain ⟨r, hr⟩ := Option.isSome_iff_exists.1
    (show (replay (fun r op => (Run.exec r op).map Prod.snd) board boardRun).isSome = true by
      decide +kernel)
  exact ⟨r, hr, serves_of_reachable (Reach.of_replay (fun _ _ _ h => exec_step h) _
    (Reach.init board_init) hr)⟩

end Steps

end EasyCore.Ipc.Event
