import EasyCore.Kernel.MsgQueue

/-! The runs of message queues: between the parts of a call its slot is the caller's alone, and
    what happens to the queues is what happens to bounded queues. -/

namespace EasyCore.Ipc.MsgQueue
open Function EasyCore.Kernel EasyCore.Runs EasyCore.Fifo EasyCore.Chain

variable {κ τ ι : Type*}

/-- The slot that a call has taken out. -/
def Phase.slot : Phase κ → Option (κ × ℕ)
  | .sendTaken k _ _ i | .sendCopied k _ _ i | .recvTaken k _ i | .recvCopied k _ _ i => some (k, i)
  | .recvWaits _ _ _ _ => none

/-- The bytes received agree with the message as far as both go. -/
def Agrees (bytes msg : List Byte) : Prop := bytes <+: msg ∨ msg <+: bytes

/-- What a call can rely on in the phase it is in. -/
def PhaseOk (s : State κ τ) (sent : κ → ℕ → List Byte) (events : List (Ev κ (List Byte))) :
    Phase κ → Prop
  | .sendTaken k _ data i => sent k i = data ∧ data.length ≤ (s.mq k).msgSize
  | .sendCopied k urgent data i =>
    sent k i = data ∧ data <+: (s.mq k).body i ∧ (urgent = false → (s.mq k).next i = none)
  | .recvWaits _ _ _ _ => True
  | .recvTaken k _ i => sent k i <+: (s.mq k).body i ∧ .get k (sent k i) ∈ events
  | .recvCopied k size bytes i => bytes.length = min size (s.mq k).msgSize ∧
      Agrees bytes (sent k i) ∧ .get k (sent k i) ∈ events

def Run.maxMsgs (r : Run κ τ ι) (k : κ) : ℕ := (r.os.mq k).maxMsgs

/-- The invariant, with the slots `F`, `M` and `H` of each queue. -/
structure Inv [DecidableEq κ] (r : Run κ τ ι) (F M H : κ → List ℕ) : Prop where
  layout : ∀ k, Layout (r.os.mq k) (F k) (M k) (H k)
  entry : ∀ k, (r.os.mq k).entry = (M k).length
  small : ∀ k, (r.os.mq k).maxMsgs < 65536
  rooms : ∀ k i, ((r.os.mq k).body i).length = (r.os.mq k).msgSize
  held : ∀ k i, i ∈ H k ↔ ∃ c ph, r.pc c = some ph ∧ ph.slot = some (k, i)
  single : ∀ {c c' ph ph' x}, r.pc c = some ph → r.pc c' = some ph' → ph.slot = some x →
    ph'.slot = some x → c = c'
  phases : ∀ {c ph}, r.pc c = some ph → PhaseOk r.os r.sent r.events ph
  stored : ∀ k, ∀ i ∈ M k, r.sent k i <+: (r.os.mq k).body i
  run : Fifo.run r.maxMsgs (fun _ => []) r.events = some fun k => (M k).map (r.sent k)

/-- The slot of a caller that may be in no call. -/
def slotOf (ph : Option (Phase κ)) : Option (κ × ℕ) := ph.bind Phase.slot

section Steps
variable {s s' : State κ τ} {sent sent' : κ → ℕ → List Byte} {ph : Phase κ}
  {events events' : List (Ev κ (List Byte))}

/-- A call relies on its own slot only. -/
theorem PhaseOk.congr (h : PhaseOk s sent events ph) (he : events ⊆ events')
    (hs : ∀ k i, ph.slot = some (k, i) →
      (s'.mq k).body i = (s.mq k).body i ∧ (s'.mq k).next i = (s.mq k).next i ∧
        (s'.mq k).msgSize = (s.mq k).msgSize ∧ sent' k i = sent k i) :
    PhaseOk s' sent' events' ph := by
  cases ph with
  | recvWaits => trivial
  | sendTaken k u data i | sendCopied k u data i =>
    obtain ⟨hb, hn, hm, hse⟩ := hs k i rfl
    simpa only [PhaseOk, hb, hn, hm, hse] using h
  | recvTaken k size i =>
    obtain ⟨hb, -, -, hse⟩ := hs k i rfl
    rw [PhaseOk, hb, hse]
    exact ⟨h.1, he h.2⟩
  | recvCopied k size bytes i =>
    obtain ⟨-, -, hm, hse⟩ := hs k i rfl
    rw [PhaseOk, hm, hse]
    exact ⟨h.1, h.2.1, he h.2.2⟩

variable [DecidableEq κ] [DecidableEq τ] [DecidableEq ι] {r r' : Run κ τ ι} {F M H : κ → List ℕ}
  {c c' : τ ⊕ ι} {k : κ} {b a : Option (Phase κ)} {q : RtMq} {F' M' H' : List ℕ}

/-- A step of the call of `c` at the queue `k`, from the phase `b` to the phase `a`. -/
structure StepAt (r r' : Run κ τ ι) (c : τ ⊕ ι) (k : κ) (b a : Option (Phase κ)) (q : RtMq) :
    Prop where
  pc : r'.pc = update r.pc c a
  mq : r'.os.mq = update r.os.mq k q
  before : r.pc c = b
  slots : ∀ k' i, slotOf b = some (k', i) ∨ slotOf a = some (k', i) → k' = k
  same : q.msgSize = (r.os.mq k).msgSize ∧ q.maxMsgs = (r.os.mq k).maxMsgs
  sent : ∀ k' i, slotOf a ≠ some (k', i) → r'.sent k' i = r.sent k' i
  events : r.events ⊆ r'.events

omit [DecidableEq τ] [DecidableEq ι] in
theorem Inv.mem_held (v : Inv r F M H) {i : ℕ} (h : slotOf (r.pc c) = some (k, i)) : i ∈ H k := by
  obtain ⟨ph, hp, hs⟩ := Option.bind_eq_some_iff.1 h
  exact (v.held k i).2 ⟨c, ph, hp, hs⟩

omit [DecidableEq τ] [DecidableEq ι] in
theorem Inv.holder (v : Inv r F M H) {x : κ × ℕ} (h : slotOf (r.pc c) = some x)
    (h' : slotOf (r.pc c') = some x) : c = c' := by
  obtain ⟨ph, hp, hs⟩ := Option.bind_eq_some_iff.1 h
  obtain ⟨ph', hp', hs'⟩ := Option.bind_eq_some_iff.1 h'
  exact v.single hp hp' hs hs'

omit [DecidableEq τ] [DecidableEq ι] in
theorem Inv.held_iff (v : Inv r F M H) {i : ℕ} :
    i ∈ H k ↔ ∃ c, slotOf (r.pc c) = some (k, i) := by
  constructor
  · intro h
    obtain ⟨c, ph, hp, hs⟩ := (v.held k i).1 h
    exact ⟨c, by rw [slotOf, hp]; exact hs⟩
  · rintro ⟨c, h⟩
    exact v.mem_held h

/-- Another caller keeps its slot, and nobody else has it. -/
theorem Inv.other_slot (v : Inv r F M H) (w : StepAt r r' c k b a q)
    (hnew : ∀ i, slotOf a = some (k, i) → i ∈ H k → slotOf b = some (k, i)) {k' : κ} {i : ℕ}
    (hc : c' ≠ c) (h : slotOf (r.pc c') = some (k', i)) :
    slotOf b ≠ some (k', i) ∧ slotOf a ≠ some (k', i) := by
  have hb : slotOf b ≠ some (k', i) := fun hb => hc (v.holder h (w.before ▸ hb))
  refine ⟨hb, fun ha => hb ?_⟩
  obtain rfl := w.slots k' i (.inr ha)
  exact hnew i ha (v.mem_held h)

theorem StepAt.slotOf_pc (w : StepAt r r' c k b a q) (c' : τ ⊕ ι) :
    slotOf (r'.pc c') = if c' = c then slotOf a else slotOf (r.pc c') := by
  rw [w.pc]
  split
  next h => rw [h, update_self]
  next h => rw [update_of_ne h]

/-- The slots taken out after the step. -/
theorem Inv.held_move (v : Inv r F M H) (w : StepAt r r' c k b a q)
    (hH : ∀ i, i ∈ H' ↔ (i ∈ H k ∧ slotOf b ≠ some (k, i)) ∨ slotOf a = some (k, i))
    (hnew : ∀ i, slotOf a = some (k, i) → i ∈ H k → slotOf b = some (k, i)) (k' : κ) (i : ℕ) :
    i ∈ update H k H' k' ↔ ∃ c', slotOf (r'.pc c') = some (k', i) := by
  simp only [w.slotOf_pc]
  by_cases hk : k' = k
  · subst hk
    rw [update_self, hH]
    constructor
    · rintro (⟨hi, hb⟩ | ha)
      · obtain ⟨c', hc'⟩ := v.held_iff.1 hi
        have hne : c' ≠ c := fun e => hb (by rw [← w.before, ← e, hc'])
        exact ⟨c', by rw [if_neg hne, hc']⟩
      · exact ⟨c, by rw [if_pos rfl, ha]⟩
    · rintro ⟨c', hc'⟩
      split at hc'
      · exact .inr hc'
      next hne => exact .inl ⟨v.mem_held hc', (v.other_slot w hnew hne hc').1⟩
  · rw [update_of_ne hk, v.held_iff]
    constructor
    · rintro ⟨c', hc'⟩
      have hne : c' ≠ c := fun e => hk (w.slots k' i (.inl (by rw [← w.before, ← e, hc'])))
      exact ⟨c', by rw [if_neg hne, hc']⟩
    · rintro ⟨c', hc'⟩
      split at hc'
      · exact absurd (w.slots k' i (.inr hc')) hk
      · exact ⟨c', hc'⟩

/-- It is enough to look at the queue of the step, and at the slots that others have not taken. -/
theorem Inv.move (v : Inv r F M H) (w : StepAt r r' c k b a q) (hl : Layout q F' M' H')
    (he : q.entry = M'.length) (hrooms : ∀ i, (q.body i).length = q.msgSize)
    (hH : ∀ i, i ∈ H' ↔ (i ∈ H k ∧ slotOf b ≠ some (k, i)) ∨ slotOf a = some (k, i))
    (hnew : ∀ i, slotOf a = some (k, i) → i ∈ H k → slotOf b = some (k, i))
    (hphase : ∀ ph, a = some ph → PhaseOk r'.os r'.sent r'.events ph)
    (hframe : ∀ i ∈ H k, slotOf b ≠ some (k, i) →
      q.body i = (r.os.mq k).body i ∧ q.next i = (r.os.mq k).next i)
    (hstored : ∀ i ∈ M', r'.sent k i <+: q.body i)
    (hrun : Fifo.run r.maxMsgs (fun _ => []) r'.events =
      some (update (fun k => (M k).map (r.sent k)) k (M'.map (r'.sent k)))) :
    Inv r' (update F k F') (update M k M') (update H k H') := by
  have hsent : ∀ {k' i}, k' ≠ k → r'.sent k' i = r.sent k' i := fun {k' i} hk =>
    w.sent k' i fun ha => hk (w.slots k' i (.inr ha))
  refine ⟨fun k' => ?_, fun k' => ?_, fun k' => ?_, fun k' i => ?_, fun k' i => ?_, ?_, ?_,
    fun k' i hi => ?_, ?_⟩
  · rw [w.mq]
    by_cases hk : k' = k
    · subst hk
      simpa using hl
    · simpa [hk] using v.layout k'
  · rw [w.mq]
    by_cases hk : k' = k
    · subst hk
      simpa using he
    · simpa [hk] using v.entry k'
  · rw [w.mq]
    by_cases hk : k' = k
    · subst hk
      simpa [w.same.2] using v.small k'
    · simpa [hk] using v.small k'
  · rw [w.mq]
    by_cases hk : k' = k
    · subst hk
      simpa using hrooms i
    · simpa [hk] using v.rooms k' i
  · rw [v.held_move w hH hnew]
    exact exists_congr fun c' => Option.bind_eq_some_iff
  · intro c₁ c₂ ph₁ ph₂ x h₁ h₂ hs₁ hs₂
    have e₁ : slotOf (r'.pc c₁) = some x := by rw [slotOf, h₁]; exact hs₁
    have e₂ : slotOf (r'.pc c₂) = some x := by rw [slotOf, h₂]; exact hs₂
    rw [w.slotOf_pc] at e₁ e₂
    split at e₁ <;> split at e₂
    next i₁ i₂ => rw [i₁, i₂]
    next i₁ i₂ => exact absurd e₁ (v.other_slot w hnew i₂ e₂).2
    next i₁ i₂ => exact absurd e₂ (v.other_slot w hnew i₁ e₁).2
    next i₁ i₂ => exact v.holder e₁ e₂
  · intro c' ph hp
    rw [w.pc] at hp
    by_cases hc : c' = c
    · subst hc
      rw [update_self] at hp
      exact hphase ph hp
    · rw [update_of_ne hc] at hp
      refine (v.phases hp).congr w.events fun k' i hs => ?_
      have hs' : slotOf (r.pc c') = some (k', i) := by rw [slotOf, hp]; exact hs
      obtain ⟨hb, ha⟩ := v.other_slot w hnew hc hs'
      rw [w.mq, w.sent k' i ha]
      by_cases hk : k' = k
      · subst hk
        obtain ⟨h1, h2⟩ := hframe i (v.mem_held hs') hb
        rw [update_self]
        exact ⟨h1, h2, w.same.1, rfl⟩
      · rw [update_of_ne hk]
        exact ⟨rfl, rfl, rfl, rfl⟩
  · rw [w.mq]
    by_cases hk : k' = k
    · subst hk
      rw [update_self] at hi ⊢
      exact hstored i hi
    · rw [update_of_ne hk] at hi ⊢
      rw [hsent hk]
      exact v.stored k' i hi
  · have hcap : r'.maxMsgs = r.maxMsgs := by
      funext k'
      by_cases hk : k' = k
      · subst hk
        simp [Run.maxMsgs, w.mq, w.same.2]
      · simp [Run.maxMsgs, w.mq, hk]
    rw [hcap, hrun, Option.some.injEq]
    funext k'
    by_cases hk : k' = k
    · subst hk
      simp
    · rw [update_of_ne hk, update_of_ne hk]
      exact List.map_congr_left fun i _ => (hsent hk).symm

/-- A step that touches no queue, of a call that has no slot. -/
theorem Inv.idle (v : Inv r F M H) (hm : r'.os.mq = r.os.mq) (hs : r'.sent = r.sent)
    (he : r'.events = r.events) (hpc : r'.pc = update r.pc c a) (hb : slotOf (r.pc c) = none)
    (ha : slotOf a = none) : Inv r' F M H := by
  have hslot : ∀ c', slotOf (r'.pc c') = slotOf (r.pc c') := by
    intro c'
    rw [hpc]
    by_cases hc : c' = c
    · rw [hc, update_self, ha, hb]
    · rw [update_of_ne hc]
  refine ⟨fun k' => ?_, fun k' => ?_, fun k' => ?_, fun k' i => ?_, fun k' i => ?_, ?_, ?_,
    fun k' i hi => ?_, ?_⟩
  · exact hm ▸ v.layout k'
  · exact hm ▸ v.entry k'
  · exact hm ▸ v.small k'
  · exact hm ▸ v.rooms k' i
  · rw [v.held_iff]
    simp only [← hslot]
    exact exists_congr fun c' => Option.bind_eq_some_iff
  · intro c₁ c₂ ph₁ ph₂ x h₁ h₂ hs₁ hs₂
    refine v.holder (x := x) ?_ ?_
    · rw [← hslot, slotOf, h₁]
      exact hs₁
    · rw [← hslot, slotOf, h₂]
      exact hs₂
  · intro c' ph hp
    rw [hpc] at hp
    by_cases hc : c' = c
    · subst hc
      rw [update_self] at hp
      cases ph with
      | recvWaits => trivial
      | sendTaken | sendCopied | recvTaken | recvCopied =>
        exact absurd (hp ▸ ha) (by simp [slotOf, Phase.slot])
    · rw [update_of_ne hc] at hp
      exact (v.phases hp).congr (he ▸ List.Subset.refl _) fun k i _ => by simp [hm, hs]
  · rw [hm, hs]
    exact v.stored k' i hi
  · have hcap : r'.maxMsgs = r.maxMsgs := by simp only [funext_iff, Run.maxMsgs, hm, implies_true]
    rw [hcap, he, hs]
    exact v.run

omit [DecidableEq τ] [DecidableEq ι] in
/-- No event, and the same messages. -/
theorem Inv.run_same (v : Inv r F M H) (he : r'.events = r.events)
    (hs : ∀ i ∈ M k, r'.sent k i = r.sent k i) : Fifo.run r.maxMsgs (fun _ => []) r'.events =
      some (update (fun k => (M k).map (r.sent k)) k ((M k).map (r'.sent k))) := by
  rw [he, v.run, Option.some.injEq, eq_comm, update_eq_self_iff]
  exact List.map_congr_left hs

omit [DecidableEq τ] [DecidableEq ι] in
/-- One event at the queue `k`. -/
theorem Inv.run_event (v : Inv r F M H) {ev : Ev κ (List Byte)} {l : List (List Byte)}
    (he : r'.events = r.events ++ [ev])
    (hs : Fifo.step r.maxMsgs (fun k => (M k).map (r.sent k)) ev =
      some (update (fun k => (M k).map (r.sent k)) k l)) :
    Fifo.run r.maxMsgs (fun _ => []) r'.events =
      some (update (fun k => (M k).map (r.sent k)) k l) := by
  rw [he]
  exact run_step v.run hs

section Moves
variable {urgent : Bool} {data bytes : List Byte} {i size : ℕ} {tasks : Tasks κ τ}

/-- Some slots fit the invariant. -/
def Ok (r : Run κ τ ι) : Prop := ∃ F M H, Inv r F M H

omit [DecidableEq κ] in
/-- A slot of the queue `k` only. -/
theorem slots_at {j : ℕ} {k' : κ} (h : (some (k, i) : Option (κ × ℕ)) = some (k', j)) :
    k' = k ∧ j = i := by
  obtain ⟨rfl, rfl⟩ := Prod.mk.inj (Option.some.inj h)
  exact ⟨rfl, rfl⟩

/-- A send takes the first free slot. -/
theorem Inv.sendBegin (v : Inv r F M H) (hc : r.pc c = none) (hf : (r.os.mq k).free = some i)
    (hd : data.length ≤ (r.os.mq k).msgSize) :
    Ok (r.after c none (.goes (.sendTaken k urgent data i),
      r.os.setMq k { r.os.mq k with free := (r.os.mq k).next i })).2 := by
  obtain ⟨F', hF, hl⟩ := (v.layout k).take hf
  have hi := (hF ▸ v.layout k : Layout _ (i :: F') _ _).free_not_mem
  have hsent : ∀ k' j, (some (k, i) : Option (κ × ℕ)) ≠ some (k', j) →
      update r.sent k (update (r.sent k) i data) k' j = r.sent k' j := by
    intro k' j hne
    by_cases hk : k' = k
    · subst hk
      have hj : j ≠ i := fun e => hne (e ▸ rfl)
      rw [update_self, update_of_ne hj]
    · rw [update_of_ne hk]
  have hMsent : ∀ j ∈ M k, update r.sent k (update (r.sent k) i data) k j = r.sent k j :=
    fun j hj => hsent k j fun e => hi.2.1 ((slots_at e).2 ▸ hj)
  refine ⟨_, _, _, v.move (b := none) (a := some (.sendTaken k urgent data i))
    ⟨rfl, rfl, hc, fun k' j h => ?_, ⟨rfl, rfl⟩, hsent, List.subset_append_left _ _⟩ hl (v.entry k)
    (v.rooms k) (fun j => ?_) (fun j h hj => ?_) (fun ph h => ?_) (fun j _ _ => ⟨rfl, rfl⟩)
    (fun j hj => ?_)
    (v.run_same (List.append_nil _) hMsent)⟩
  · exact (slots_at (h.resolve_left (by simp [slotOf]))).1
  · simp [slotOf, Phase.slot, or_comm, eq_comm]
  · exact absurd hj ((slots_at h).2 ▸ hi.2.2)
  · obtain rfl := Option.some.inj h
    simp only [Run.after, PhaseOk, update_self, State.setMq, true_and]
    exact hd
  · change update r.sent k (update (r.sent k) i data) k j <+: (r.os.mq k).body j
    rw [hMsent j hj]
    exact v.stored k j hj

/-- A send copies its message. -/
theorem Inv.sendCopy (v : Inv r F M H) (hc : r.pc c = some (.sendTaken k urgent data i)) :
    Ok (r.after c (some (.sendTaken k urgent data i)) (.goes (.sendCopied k urgent data i),
      mqSendCopy k urgent data i r.os)).2 := by
  have hi : i ∈ H k := v.mem_held (c := c) (by rw [hc]; rfl)
  obtain ⟨hsent, hd⟩ : r.sent k i = data ∧ data.length ≤ (r.os.mq k).msgSize := v.phases hc
  have hl : Layout { r.os.mq k with
      next := if urgent then (r.os.mq k).next else update (r.os.mq k).next i none
      body := update (r.os.mq k).body i (data ++ ((r.os.mq k).body i).drop data.length) }
      (F k) (M k) (H k) := by
    cases urgent
    · exact (v.layout k).copy hi _ none
    · exact (v.layout k).setBody _
  have hM : ∀ j ∈ M k, j ≠ i := fun j hj e => ((v.layout k).not_mem hi).2 (e ▸ hj)
  refine ⟨_, _, _, v.move (a := some (.sendCopied k urgent data i))
    ⟨rfl, rfl, hc, fun k' j h => ?_, ⟨rfl, rfl⟩, fun _ _ _ => rfl,
      List.subset_append_left _ _⟩ hl (v.entry k) (fun j => ?_)
    (fun j => ?_) (fun j h _ => h) (fun ph h => ?_) (fun j _ hj => ?_) (fun j hj => ?_)
    (v.run_same (List.append_nil _) fun _ _ => rfl)⟩
  · exact (slots_at (h.elim id id)).1
  · by_cases hj : j = i
    · subst hj
      have := v.rooms k j
      simp only [update_self, List.length_append, List.length_drop]
      omega
    · simpa [hj] using v.rooms k j
  · by_cases hj : j = i
    · simp [slotOf, Phase.slot, hj, hi]
    · simp [slotOf, Phase.slot, Ne.symm hj]
  · obtain rfl := Option.some.inj h
    simp only [Run.after, PhaseOk, mqSendCopy, State.setMq, update_self]
    exact ⟨hsent, List.prefix_append _ _, fun hu => by simp [hu]⟩
  · have hne : j ≠ i := fun e => hj (e ▸ rfl)
    simp only [update_of_ne hne, true_and]
    split
    · rfl
    · rw [update_of_ne hne]
  · simp only [update_of_ne (hM j hj)]
    exact v.stored k j hj

omit [DecidableEq κ] in
/-- The caller gives its slot up. -/
theorem erase_iff (l : Layout q F' M' H') (j : ℕ) :
    j ∈ H'.erase i ↔ (j ∈ H' ∧ (some (k, i) : Option (κ × ℕ)) ≠ some (k, j)) ∨
      slotOf (none : Option (Phase κ)) = some (k, j) := by
  have hnd : H'.Nodup := (List.nodup_append.1 l.nodup).2.1
  rw [hnd.mem_erase_iff]
  simp [slotOf, and_comm, eq_comm]

/-- A send links its message. -/
theorem Inv.sendLink (v : Inv r F M H) (hc : r.pc c = some (.sendCopied k urgent data i)) :
    Ok (r.after c (some (.sendCopied k urgent data i)) (.done rtEok none,
      mqSendLink k urgent i r.os)).2 := by
  have hi : i ∈ H k := v.mem_held (c := c) (by rw [hc]; rfl)
  obtain ⟨hsent, hbody, hnext⟩ : r.sent k i = data ∧ data <+: (r.os.mq k).body i ∧
      (urgent = false → (r.os.mq k).next i = none) := v.phases hc
  have hlen := (v.layout k).length_eq
  have hpos : 0 < (H k).length := List.length_pos_of_mem hi
  have hsmall := v.small k
  have hentry : ((r.os.mq k).entry + 1) % 65536 = (M k).length + 1 := by
    rw [v.entry k, Nat.mod_eq_of_lt (by omega)]
  have hcap : ((M k).map (r.sent k)).length < r.maxMsgs k := by
    rw [List.length_map, Run.maxMsgs]
    omega
  cases urgent with
  | false =>
    refine ⟨_, _, _, v.move (a := none) (q := mqLinkTail i (r.os.mq k))
      ⟨rfl, rfl, hc, fun k' j h => ?_, ⟨rfl, rfl⟩, fun _ _ _ => rfl,
      List.subset_append_left _ _⟩
      ((v.layout k).linkTail hi (hnext rfl)) ?_ (v.rooms k) (erase_iff (v.layout k))
      (fun j h => absurd h (by simp [slotOf])) (fun ph h => absurd h (by simp)) (fun j hj hne => ?_)
      (fun j hj => ?_) (v.run_event rfl ?_)⟩
    · exact (slots_at (h.resolve_right (by simp [slotOf]))).1
    · simpa [mqLinkTail] using hentry
    · refine ⟨rfl, ?_⟩
      cases ht : (r.os.mq k).tail with
      | none => simp [mqLinkTail, ht]
      | some t =>
        have hjt : j ≠ t := by
          rintro rfl
          refine ((v.layout k).not_mem hj).2 (List.mem_of_getLast? ?_)
          rw [← (v.layout k).tail, ht]
        simp [mqLinkTail, ht, hjt]
    · rcases List.mem_append.1 hj with hj | hj
      · exact v.stored k j hj
      · obtain rfl := List.mem_singleton.1 hj
        exact hsent ▸ hbody
    · rw [List.map_append, List.map_singleton]
      exact hsent.symm ▸ step_put hcap
  | true =>
    refine ⟨_, _, _, v.move (a := none) (q := mqLinkHead i (r.os.mq k))
      ⟨rfl, rfl, hc, fun k' j h => ?_, ⟨rfl, rfl⟩, fun _ _ _ => rfl,
      List.subset_append_left _ _⟩
      ((v.layout k).linkHead hi) ?_ (v.rooms k) (erase_iff (v.layout k))
      (fun j h => absurd h (by simp [slotOf])) (fun ph h => absurd h (by simp)) (fun j hj hne => ?_)
      (fun j hj => ?_) (v.run_event rfl ?_)⟩
    · exact (slots_at (h.resolve_right (by simp [slotOf]))).1
    · simpa [mqLinkHead] using hentry
    · have hji : j ≠ i := fun e => hne (e ▸ rfl)
      exact ⟨rfl, update_of_ne hji _ _⟩
    · rcases List.mem_cons.1 hj with rfl | hj
      · exact hsent ▸ hbody
      · exact v.stored k j hj
    · rw [List.map_cons]
      exact hsent.symm ▸ step_putFront hcap

/-- A receive takes the first message. -/
theorem Inv.recvTake (v : Inv r F M H) (hc : r.pc c = b) (hb : slotOf b = none)
    (hh : (r.os.mq k).head = some i) {e : ℕ} (he : e = ((r.os.mq k).entry + 65535) % 65536) :
    Ok (r.after c b (.goes (.recvTaken k size i),
      r.os.setMq k { mqUnlink i (r.os.mq k) with entry := e })).2 := by
  obtain ⟨M', hM, hl⟩ := (v.layout k).unlink hh
  have hi := (hM ▸ v.layout k : Layout _ _ (i :: M') _).list_not_mem
  have hlen := (v.layout k).length_eq
  have hsmall := v.small k
  have hentry := v.entry k
  rw [hM, List.length_cons] at hentry hlen
  have hstored := v.stored k
  rw [hM] at hstored
  refine ⟨_, _, _, v.move (a := some (.recvTaken k size i))
    ⟨rfl, rfl, hc, fun k' j h => ?_, ⟨rfl, rfl⟩, fun _ _ _ => rfl,
      List.subset_append_left _ _⟩
    (hl.setEntry e) ?_ (v.rooms k) (fun j => ?_) (fun j h hj => ?_) (fun ph h => ?_)
    (fun j hj _ => ⟨rfl, rfl⟩) (fun j hj => ?_) (v.run_event rfl ?_)⟩
  · exact (slots_at (h.resolve_left (by simp [hb]))).1
  · dsimp only
    omega
  · rw [hb, List.mem_cons]
    simp [slotOf, Phase.slot, or_comm, eq_comm]
  · exact absurd hj ((slots_at h).2 ▸ hi.2.2)
  · obtain rfl := Option.some.inj h
    simp only [Run.after, PhaseOk, State.setMq, update_self]
    exact ⟨hstored i List.mem_cons_self, List.mem_append_right _ List.mem_cons_self⟩
  · exact hstored j (List.mem_cons_of_mem i hj)
  · exact step_get (by rw [hM, List.map_cons]; rfl)

/-- A receive copies the message. -/
theorem Inv.recvCopy (v : Inv r F M H) (hc : r.pc c = some (.recvTaken k size i)) :
    Ok (r.after c (some (.recvTaken k size i))
      (.goes (.recvCopied k size (mqRecvCopy k size i r.os) i), r.os)).2 := by
  have hi : i ∈ H k := v.mem_held (c := c) (by rw [hc]; rfl)
  obtain ⟨hsent, hget⟩ : r.sent k i <+: (r.os.mq k).body i ∧
      Ev.get k (r.sent k i) ∈ r.events :=
    v.phases hc
  refine ⟨_, _, _, v.move (a := some (.recvCopied k size (mqRecvCopy k size i r.os) i))
    ⟨rfl, (update_eq_self k _).symm, hc, fun k' j h => ?_, ⟨rfl, rfl⟩, fun _ _ _ => rfl,
      List.subset_append_left _ _⟩
    (v.layout k) (v.entry k) (v.rooms k) (fun j => ?_) (fun j h _ => h) (fun ph h => ?_)
    (fun j _ _ => ⟨rfl, rfl⟩) (v.stored k) (v.run_same (List.append_nil _) fun _ _ => rfl)⟩
  · exact (slots_at (h.elim id id)).1
  · by_cases hj : j = i
    · simp [slotOf, Phase.slot, hj, hi]
    · simp [slotOf, Phase.slot, Ne.symm hj]
  · obtain rfl := Option.some.inj h
    refine ⟨?_, List.prefix_or_prefix_of_prefix (List.take_prefix _ _) hsent,
      List.mem_append_left _ hget⟩
    change (mqRecvCopy k size i r.os).length = min size (r.os.mq k).msgSize
    rw [mqRecvCopy, List.length_take, v.rooms k i]
    split <;> omega

/-- A receive frees its slot and returns. -/
theorem Inv.recvFree (v : Inv r F M H) {bytes : List Byte}
    (hc : r.pc c = some (.recvCopied k size bytes i)) :
    Ok (r.after c (some (.recvCopied k size bytes i)) (.done rtEok (some bytes),
      r.os.setMq k (mqFree i (r.os.mq k)))).2 := by
  have hi : i ∈ H k := v.mem_held (c := c) (by rw [hc]; rfl)
  refine ⟨_, _, _, v.move (a := none) ⟨rfl, rfl, hc, fun k' j h => ?_, ⟨rfl, rfl⟩, fun _ _ _ => rfl,
      List.subset_append_left _ _⟩
    ((v.layout k).give hi) (v.entry k) (v.rooms k) (erase_iff (v.layout k))
    (fun j h => absurd h (by simp [slotOf])) (fun ph h => absurd h (by simp)) (fun j hj hne => ?_)
    (v.stored k) (v.run_same (List.append_nil _) fun _ _ => rfl)⟩
  · exact (slots_at (h.resolve_right (by simp [slotOf]))).1
  · have hji : j ≠ i := fun e => hne (e ▸ rfl)
    exact ⟨rfl, update_of_ne hji _ _⟩

/-- A reset frees all messages. -/
theorem Inv.reset (v : Inv r F M H) (hc : r.pc c = none) {os : State κ τ}
    (h : rtMqReset k r.os = some os) :
    Ok { r with os := os, events := r.events ++ [.clear k] } := by
  obtain ⟨mq, hmq, rfl⟩ := Option.map_eq_some_iff.1 h
  have hlen := (v.layout k).length_eq
  obtain ⟨mq', hr, hl, hb, hs, hm, hn⟩ :=
    (v.layout k).releaseAll ((r.os.mq k).maxMsgs + 1) (by omega)
  obtain rfl := Option.some.inj (hmq.symm.trans hr)
  refine ⟨_, _, _, v.move (c := c) (b := none) (a := none)
    ⟨by rw [← hc, update_eq_self], rfl, hc, by simp [slotOf], ⟨hs, hm⟩, fun _ _ _ => rfl,
      List.subset_append_left _ _⟩
    (hl.setEntry 0) rfl (fun j => ?_) (fun j => by simp [slotOf])
    (fun j h => absurd h (by simp [slotOf])) (fun ph h => absurd h (by simp))
    (fun j hj _ => ⟨by rw [hb], hn j hj⟩) (fun j hj => absurd hj (by simp)) (v.run_event rfl rfl)⟩
  simp only [hb, hs]
  exact v.rooms k j

end Moves

section Step
variable {op : Op κ τ ι} {out : Outcome κ} {os : State κ τ} {e : Option (ℤ × Option (List Byte))}

omit [DecidableEq κ] [DecidableEq τ] [DecidableEq ι] in
/-- Only the end of a send is seen of calls that return. -/
theorem seen_done {e : ℤ} {bytes : Option (List Byte)} (hb : slotOf b = none) :
    r.seen b (.done e bytes) = [] := by
  cases b with
  | none => rfl
  | some ph =>
    cases ph with
    | recvWaits => rfl
    | sendTaken | sendCopied | recvTaken | recvCopied =>
      exact absurd hb (by simp [slotOf, Phase.slot])

/-- A call without a slot returns, and no queue has changed. -/
theorem Inv.fail (v : Inv r F M H) (hc : r.pc c = b) (hb : slotOf b = none) {e : ℤ}
    {bytes : Option (List Byte)} (hm : os.mq = r.os.mq) :
    Ok (r.after c b (.done e bytes, os)).2 := by
  refine ⟨F, M, H, v.idle hm rfl ?_ rfl (hc ▸ hb) rfl⟩
  change r.events ++ r.seen b (.done e bytes) = r.events
  rw [seen_done hb, List.append_nil]

/-- The loop of a receive: it returns, waits, or takes a message. -/
theorem Inv.recvLoop (v : Inv r F M H) (hc : r.pc c = b) (hb : slotOf b = none) {size : ℕ}
    {timeout : ℤ} {tickDelta : ℕ} {c₀ : Option τ}
    (h : mqRecvLoop c₀ k size timeout tickDelta r.os = some (out, os)) :
    Ok (r.after c b (out, os)).2 := by
  unfold mqRecvLoop at h
  dsimp only at h
  split at h
  · obtain ⟨t, -, h⟩ := Option.map_eq_some_iff.1 h
    split at h
    · obtain ⟨rfl, rfl⟩ := Prod.mk.inj h
      exact v.fail hc hb rfl
    · obtain ⟨rfl, rfl⟩ := Prod.mk.inj h
      exact ⟨F, M, H, v.idle rfl rfl (List.append_nil _) rfl (hc ▸ hb) rfl⟩
  · obtain ⟨i, hh, h⟩ := Option.map_eq_some_iff.1 h
    obtain ⟨rfl, rfl⟩ := Prod.mk.inj h
    exact v.recvTake hc hb hh rfl

/-- A call begins. -/
theorem Inv.send (v : Inv r F M H) (hc : r.pc c = none) {urgent : Bool} {data : List Byte}
    (h : mqSendBegin k urgent data r.os = some (out, os)) : Ok (r.after c none (out, os)).2 := by
  unfold mqSendBegin at h
  dsimp only at h
  obtain ⟨-, h⟩ := Option.ite_none_left_eq_some.1 h
  split at h
  · obtain ⟨rfl, rfl⟩ := Prod.mk.inj (Option.some.inj h)
    exact v.fail hc rfl rfl
  next hd =>
    split at h
    · obtain ⟨rfl, rfl⟩ := Prod.mk.inj (Option.some.inj h)
      exact v.fail hc rfl rfl
    next i hf =>
      obtain ⟨rfl, rfl⟩ := Prod.mk.inj (Option.some.inj h)
      exact v.sendBegin hc hf (Nat.le_of_not_lt hd)

theorem Inv.recv (v : Inv r F M H) (hc : r.pc c = none) {size : ℕ} {timeout : ℤ} {c₀ : Option τ}
    (h : mqRecvBegin c₀ k size timeout r.os = some (out, os)) :
    Ok (r.after c none (out, os)).2 := by
  unfold mqRecvBegin at h
  obtain ⟨-, h⟩ := Option.ite_none_left_eq_some.1 h
  split at h
  · obtain ⟨rfl, rfl⟩ := Prod.mk.inj (Option.some.inj h)
    exact v.fail hc rfl rfl
  · exact v.recvLoop hc rfl h

/-- A call goes on. -/
theorem Inv.goOn (v : Inv r F M H) {ph : Phase κ} (hc : r.pc c = some ph) {c₀ : Option τ}
    (h : mqGoOn c₀ r.os ph = some (out, os)) : Ok (r.after c (some ph) (out, os)).2 := by
  cases ph with
  | sendTaken k urgent data i =>
    obtain ⟨rfl, rfl⟩ := Prod.mk.inj (Option.some.inj h)
    exact v.sendCopy hc
  | sendCopied k urgent data i =>
    obtain ⟨rfl, rfl⟩ := Prod.mk.inj (Option.some.inj h)
    exact v.sendLink hc
  | recvWaits k size timeout tickDelta =>
    obtain ⟨t, -, h⟩ := Option.bind_eq_some_iff.1 h
    dsimp only at h
    split at h
    · obtain ⟨rfl, rfl⟩ := Prod.mk.inj (Option.some.inj h)
      exact v.fail hc rfl rfl
    · exact v.recvLoop hc rfl h
  | recvTaken k size i =>
    obtain ⟨rfl, rfl⟩ := Prod.mk.inj (Option.some.inj h)
    exact v.recvCopy hc
  | recvCopied k size bytes i =>
    obtain ⟨rfl, rfl⟩ := Prod.mk.inj (Option.some.inj h)
    exact v.recvFree hc

/-- One step keeps the invariant. -/
theorem Inv.step (v : Inv r F M H) (h : r.exec op = some (e, r')) : Ok r' := by
  cases op with
  | send c k urgent data =>
    obtain ⟨⟨hc, -⟩, h⟩ := Option.ite_none_right_eq_some.1 h
    obtain ⟨⟨out, os⟩, ho, ha⟩ := Option.map_eq_some_iff.1 h
    obtain rfl : (r.after c none (out, os)).2 = r' := by rw [ha]
    exact v.send hc ho
  | recv c k size timeout =>
    obtain ⟨⟨hc, -⟩, h⟩ := Option.ite_none_right_eq_some.1 h
    obtain ⟨⟨out, os⟩, ho, ha⟩ := Option.map_eq_some_iff.1 h
    obtain rfl : (r.after c none (out, os)).2 = r' := by rw [ha]
    exact v.recv hc ho
  | goOn c =>
    obtain ⟨ph, hc, h⟩ := Option.bind_eq_some_iff.1 h
    obtain ⟨-, h⟩ := Option.ite_none_right_eq_some.1 h
    obtain ⟨⟨out, os⟩, ho, ha⟩ := Option.map_eq_some_iff.1 h
    obtain rfl : (r.after c (some ph) (out, os)).2 = r' := by rw [ha]
    exact v.goOn hc ho
  | expire t =>
    obtain ⟨tasks, -, h⟩ := Option.map_eq_some_iff.1 h
    obtain ⟨-, rfl⟩ := Prod.mk.inj h
    exact ⟨F, M, H, v.layout, v.entry, v.small, v.rooms, v.held, v.single,
      fun hp => (v.phases hp).congr (List.Subset.refl _) fun _ _ _ => ⟨rfl, rfl, rfl, rfl⟩,
      v.stored, v.run⟩
  | reset c k =>
    obtain ⟨⟨hc, -⟩, h⟩ := Option.ite_none_right_eq_some.1 h
    obtain ⟨os, ho, h⟩ := Option.map_eq_some_iff.1 h
    obtain ⟨-, rfl⟩ := Prod.mk.inj h
    exact v.reset hc ho
  | tick =>
    obtain ⟨-, rfl⟩ := Prod.mk.inj (Option.some.inj h)
    exact ⟨F, M, H, v.layout, v.entry, v.small, v.rooms, v.held, v.single,
      fun hp => (v.phases hp).congr (List.Subset.refl _) fun _ _ _ => ⟨rfl, rfl, rfl, rfl⟩,
      v.stored, v.run⟩

omit [DecidableEq τ] [DecidableEq ι] in
theorem init_ok (h : r.Init) : Ok r := by
  obtain ⟨-, hm, hp, he⟩ := h
  have hspec : ∀ k, ∃ F, Layout (r.os.mq k) F [] [] ∧ (r.os.mq k).entry = 0 ∧
      (r.os.mq k).maxMsgs < 65536 ∧ ∀ i, ((r.os.mq k).body i).length = (r.os.mq k).msgSize := by
    intro k
    obtain ⟨body, msgSize, poolSize, flag, hk, hb⟩ := hm k
    obtain ⟨F, hl, h0, hbody, hsize, hmax⟩ := rtMqInit_spec body msgSize poolSize flag
    rw [hk]
    exact ⟨F, hl, h0, hmax, fun i => by rw [hbody, hsize, hb]⟩
  choose F hl h0 hmax hrooms using hspec
  refine ⟨F, fun _ => [], fun _ => [], hl, h0, hmax, hrooms, ?_, ?_, ?_, by simp, ?_⟩
  · simp [hp]
  · simp [hp]
  · simp [hp]
  · rw [he]
    rfl

/-- What a message queue promises: its slots are on the free list, on the list of the messages, or
    held by one call each; the list has `entry` messages, and they are those of a bounded queue;
    what is received is the message got from that queue, cut to the smaller size; a call that fails
    changes no queue, and a full queue is reported at once. -/
structure IsQueue (r : Run κ τ ι) (F M H : κ → List ℕ) : Prop where
  free : ∀ k, Chained (r.os.mq k).next (r.os.mq k).free (F k)
  list : ∀ k, Chained (r.os.mq k).next (r.os.mq k).head (M k) ∧ (r.os.mq k).tail = (M k).getLast?
  slots : ∀ k, (F k ++ M k ++ H k).Perm (List.range (r.os.mq k).maxMsgs)
  held : ∀ k i, i ∈ H k ↔ ∃ c ph, r.pc c = some ph ∧ ph.slot = some (k, i)
  single : ∀ {c c' ph ph' x}, r.pc c = some ph → r.pc c' = some ph' → ph.slot = some x →
    ph'.slot = some x → c = c'
  entry : ∀ k, (r.os.mq k).entry = (M k).length
  run : Fifo.run r.maxMsgs (fun _ => []) r.events = some fun k => (M k).map (r.sent k)
  received : ∀ c k size bytes i, r.pc c = some (.recvCopied k size bytes i) →
    bytes.length = min size (r.os.mq k).msgSize ∧ Agrees bytes (r.sent k i) ∧
      Ev.get k (r.sent k i) ∈ r.events
  fails : ∀ op e bytes r', r.exec op = some (some (e, bytes), r') → e ≠ rtEok →
    r'.os.mq = r.os.mq ∧ r'.events = r.events
  full : ∀ c k urgent data, r.pc c = none → CanRun r.os.tasks c → F k = [] → data ≠ [] →
    data.length ≤ (r.os.mq k).msgSize →
      r.exec (.send c k urgent data) = some (some (-rtEfull, none), r)

/-- A loop that fails. -/
theorem recvLoop_fails {c₀ : Option τ} {size : ℕ} {timeout e : ℤ} {tickDelta : ℕ}
    {bytes : Option (List Byte)} {s : State κ τ}
    (h : mqRecvLoop c₀ k size timeout tickDelta s = some (.done e bytes, os)) : os.mq = s.mq := by
  unfold mqRecvLoop at h
  dsimp only at h
  split at h
  · obtain ⟨t, -, h⟩ := Option.map_eq_some_iff.1 h
    split at h
    · obtain ⟨-, rfl⟩ := Prod.mk.inj h
      rfl
    · exact absurd (congrArg Prod.fst h) (by simp)
  · obtain ⟨i, -, h⟩ := Option.map_eq_some_iff.1 h
    exact absurd (congrArg Prod.fst h) (by simp)

/-- The outcome of a step that returns. -/
theorem after_done {e : ℤ} {bytes : Option (List Byte)}
    (h : r.after c b (out, os) = (some (e, bytes), r')) :
    out = .done e bytes ∧ r'.os = os ∧ r'.events = r.events ++ r.seen b out := by
  cases out with
  | done e' bytes' =>
    obtain ⟨he, rfl⟩ := Prod.mk.inj h
    obtain ⟨rfl, rfl⟩ := Prod.mk.inj (Option.some.inj he)
    exact ⟨rfl, rfl, rfl⟩
  | goes ph => exact absurd (congrArg Prod.fst h) (by simp [Run.after])

/-- A call that fails. -/
theorem fails_of_exec {e : ℤ} {bytes : Option (List Byte)}
    (h : r.exec op = some (some (e, bytes), r')) (he : e ≠ rtEok) :
    r'.os.mq = r.os.mq ∧ r'.events = r.events := by
  cases op with
  | send c k urgent data =>
    obtain ⟨-, h⟩ := Option.ite_none_right_eq_some.1 h
    obtain ⟨⟨out, os⟩, ho, ha⟩ := Option.map_eq_some_iff.1 h
    obtain ⟨rfl, hos, hev⟩ := after_done ha
    rw [hos, hev, seen_done rfl, List.append_nil]
    unfold mqSendBegin at ho
    dsimp only at ho
    obtain ⟨-, ho⟩ := Option.ite_none_left_eq_some.1 ho
    split at ho
    · obtain ⟨-, rfl⟩ := Prod.mk.inj (Option.some.inj ho)
      exact ⟨rfl, rfl⟩
    · split at ho
      · obtain ⟨-, rfl⟩ := Prod.mk.inj (Option.some.inj ho)
        exact ⟨rfl, rfl⟩
      · exact absurd (congrArg Prod.fst (Option.some.inj ho)) (by simp)
  | recv c k size timeout =>
    obtain ⟨-, h⟩ := Option.ite_none_right_eq_some.1 h
    obtain ⟨⟨out, os⟩, ho, ha⟩ := Option.map_eq_some_iff.1 h
    obtain ⟨rfl, hos, hev⟩ := after_done ha
    rw [hos, hev, seen_done rfl, List.append_nil]
    unfold mqRecvBegin at ho
    obtain ⟨-, ho⟩ := Option.ite_none_left_eq_some.1 ho
    split at ho
    · obtain ⟨-, rfl⟩ := Prod.mk.inj (Option.some.inj ho)
      exact ⟨rfl, rfl⟩
    · exact ⟨recvLoop_fails ho, rfl⟩
  | goOn c =>
    obtain ⟨ph, -, h⟩ := Option.bind_eq_some_iff.1 h
    obtain ⟨-, h⟩ := Option.ite_none_right_eq_some.1 h
    obtain ⟨⟨out, os⟩, ho, ha⟩ := Option.map_eq_some_iff.1 h
    obtain ⟨rfl, hos, hev⟩ := after_done ha
    cases ph with
    | sendTaken | recvTaken => exact absurd (congrArg Prod.fst (Option.some.inj ho)) (by simp)
    | sendCopied | recvCopied =>
      obtain ⟨rfl, -⟩ := Outcome.done.inj (congrArg Prod.fst (Option.some.inj ho))
      exact absurd rfl he
    | recvWaits k size timeout tickDelta =>
      rw [hos, hev, seen_done rfl, List.append_nil]
      obtain ⟨t, -, ho⟩ := Option.bind_eq_some_iff.1 ho
      dsimp only at ho
      split at ho
      · obtain ⟨-, rfl⟩ := Prod.mk.inj (Option.some.inj ho)
        exact ⟨rfl, rfl⟩
      · exact ⟨recvLoop_fails ho, rfl⟩
  | expire t =>
    obtain ⟨tasks, -, h⟩ := Option.map_eq_some_iff.1 h
    exact absurd (congrArg Prod.fst h) (by simp)
  | reset c k =>
    obtain ⟨-, h⟩ := Option.ite_none_right_eq_some.1 h
    obtain ⟨os, -, h⟩ := Option.map_eq_some_iff.1 h
    obtain ⟨rfl, -⟩ := Prod.mk.inj (Option.some.inj (congrArg Prod.fst h))
    exact absurd rfl he
  | tick => exact absurd (congrArg Prod.fst (Option.some.inj h)) (by simp)

theorem Inv.isQueue (v : Inv r F M H) : IsQueue r F M H where
  free k := (v.layout k).free
  list k := ⟨(v.layout k).list, (v.layout k).tail⟩
  slots k := (v.layout k).perm
  held := v.held
  single := v.single
  entry := v.entry
  run := v.run
  received _ _ _ _ _ hc := v.phases hc
  fails _ _ _ _ h he := fails_of_exec h he
  full c k urgent data hc hrun hF hd hlen := by
    have hfree : (r.os.mq k).free = none := by
      rw [(v.layout k).free.head, hF]
      rfl
    have hb : mqSendBegin k urgent data r.os = some (.done (-rtEfull) none, r.os) := by
      unfold mqSendBegin
      dsimp only
      rw [if_neg (by simpa using hd), if_neg (Nat.not_lt.2 hlen), hfree]
    have hpc : update r.pc c none = r.pc := by rw [← hc, update_eq_self]
    simp [Run.exec, hc, hrun, hb, Run.after, hpc, Run.seen]

end Step

end Steps

section Board

theorem exec_step [DecidableEq κ] [DecidableEq τ] [DecidableEq ι] {r r' : Run κ τ ι}
    {op : Op κ τ ι} (h : (r.exec op).map Prod.snd = some r') : True ∧ system.step r op r' := by
  obtain ⟨⟨e, r₁⟩, hr, rfl⟩ := Option.map_eq_some_iff.1 h
  exact ⟨trivial, e, hr⟩

/-- One queue for two messages of four bytes, threads that are ready, and interrupt handlers. -/
def board : Run Unit ℕ ℕ where
  os := { tasks := ⟨fun t => ⟨.ready, t, t, 0, 0, 0, 0, false, false, true⟩, fun _ => []⟩
          mq _ := rtMqInit (fun _ => [0, 0, 0, 0]) 4 16 .prio
          tick := 0 }
  pc _ := none
  sent _ _ := []
  events := []

theorem board_init : board.Init :=
  ⟨fun _ => rfl, fun _ => ⟨_, _, _, _, rfl, fun _ => rfl⟩, fun _ => rfl, rfl⟩

/-- A receiver waits while a handler and a thread are inside of their sends; the thread overtakes
    the handler, which sends to the front, and a third send finds the queue full. -/
def boardRun : List (Op Unit ℕ ℕ) :=
  [.recv (.inl 3) () 2 10, .send (.inr 0) () true [1, 2], .tick, .send (.inl 4) () false [3, 4, 5],
    .send (.inl 5) () false [6], .goOn (.inl 4), .goOn (.inl 4), .goOn (.inr 0), .goOn (.inl 3),
    .goOn (.inr 0), .recv (.inr 1) () 8 0, .goOn (.inl 3), .goOn (.inl 3), .goOn (.inr 1),
    .goOn (.inr 1), .send (.inl 6) () false [7], .reset (.inr 1) ()]

/-- CORRECT: in every run of any callers, with every order of the parts of their calls. -/
theorem isQueue_of_reachable [DecidableEq κ] [DecidableEq τ] [DecidableEq ι] {r : Run κ τ ι}
    (h : Reachable system r) : ∃ F M H, IsQueue r F M H := by
  have hok : Ok r := by
    refine h.invariant (fun _ hi => init_ok hi) ?_
    rintro r op r' ⟨F, M, H, v⟩ - ⟨e, hs⟩
    exact v.step hs
  obtain ⟨F, M, H, v⟩ := hok
  exact ⟨F, M, H, v.isQueue⟩

theorem isQueue_of_reachable_board :
    ∃ r, replay (fun r op => (Run.exec r op).map Prod.snd) board boardRun = some r ∧
      ∃ F M H, IsQueue r F M H := by
  obtain ⟨r, hr⟩ := Option.isSome_iff_exists.1
    (show (replay (fun r op => (Run.exec r op).map Prod.snd) board boardRun).isSome = true by
      decide +kernel)
  exact ⟨r, hr, isQueue_of_reachable (Reach.of_replay (fun _ _ _ h => exec_step h) _
    (Reach.init board_init) hr)⟩

end Board

end EasyCore.Ipc.MsgQueue
